import Xv6.Ide.Refine

/-!
# The disk driver when the disk fails

The driver of `Xv6.Ide.Model` with a disk that reports a status for each request.  A request that
fails does nothing to the disk.  `ideintr` asks for the status only when there is data to fetch,
and sets the flags in any case.

With the data forgotten, nothing tells a request that failed from one that did not: the queue and
the processes go on as they do without errors, and `Inv` holds.

## Main definitions

* `State.erase` — the driver with the data forgotten.
* `Errors.State`, `Errors.step` — the driver with the status register.
* `Completion.Kept` — what an error must not do to a buffer.

## Main results

* `Errors.step_erase` — a step with errors is a step without them, but for the data.
* `Errors.track_step` — every step keeps track of the requests and their statuses.
* `Errors.kept_iff` — which errors are turned into data.
-/

namespace Xv6.Ide

open Function LinkedQueue Machine

variable {nbuf : ℕ} {P D : Type}

/-! ## The driver with the data forgotten -/

def Buf.erase (x : Buf P D) : Buf P Unit := { x with data := () }

def Request.erase (r : Request D) : Request Unit := { r with out := r.out.map fun _ => () }

def Memide.Event.erase : Memide.Event nbuf P D → Memide.Event nbuf P Unit
  | .set b x => .set b x.erase
  | .iderw b => .iderw b

def Action.erase : Action nbuf P D → Action nbuf P Unit
  | .lock p b => .lock p b
  | .unlock p b => .unlock p b
  | .store b valid dirty dev blockno _ => .store b valid dirty dev blockno ()
  | .iderw p b => .iderw p b
  | .kill p => .kill p
  | .resume p => .resume p
  | .finish => .finish
  | .ideintr => .ideintr

def State.erase (s : State nbuf P D) : State nbuf P Unit where
  havedisk1 := s.havedisk1
  queue := s.queue
  buf := fun b => (s.buf b).erase
  active := s.active.map Request.erase
  irq := s.irq
  port := ()
  disk := fun _ _ => ()
  pc := s.pc
  panicked := s.panicked
  entered := s.entered
  served := s.served
  hist := s.hist.map Memide.Event.erase

variable {s s' : State nbuf P D} {b c : Fin nbuf} {p : P} {k : ℕ}

theorem erase_request (x : Buf P D) : (request x).erase = request x.erase := by
  cases hdirty : x.dirty <;> simp [request, Request.erase, Buf.erase, Buf.drive, hdirty]

theorem erase_update (buf : Fin nbuf → Buf P D) (b : Fin nbuf) (x : Buf P D) :
    (fun c => (update buf b x c).erase) =
      update (fun c => (buf c).erase) b x.erase :=
  comp_update Buf.erase buf b x

theorem erase_set (s : State nbuf P D) (b : Fin nbuf) (x : Buf P D) :
    (s.set b x).erase = s.erase.set b x.erase := by
  simp only [State.erase, State.set, erase_update, List.map_append, List.map_cons, List.map_nil,
    Memide.Event.erase]

theorem erase_idestart (s : State nbuf P D) (b : Fin nbuf) :
    idestart s.erase (some b) = (idestart s (some b)).map State.erase := by
  simp only [idestart, apply_ite (Option.map State.erase)]
  refine if_congr Iff.rfl rfl (if_congr ?_ rfl ?_)
  · simp only [State.erase, Option.isSome_map]
  · simp only [State.erase, Option.map_some, erase_request]

section Processes

variable [DecidableEq P]

theorem erase_wait (s : State nbuf P D) (p : P) (b : Fin nbuf) (k : ℕ) :
    (wait s p b k).erase = wait s.erase p b k := by
  simp only [wait, apply_ite State.erase]
  exact if_congr Iff.rfl rfl rfl

theorem erase_iderw (s : State nbuf P D) (p : P) (b : Fin nbuf) :
    iderw s.erase p b = (iderw s p b).map State.erase := by
  simp only [iderw, apply_ite (Option.map State.erase)]
  refine if_congr Iff.rfl rfl (if_congr Iff.rfl rfl (if_congr Iff.rfl rfl ?_))
  cases hqueue : s.queue.append nbuf b with
  | none =>
    have hqueue' : s.erase.queue.append nbuf b = none := hqueue
    rw [hqueue']
    rfl
  | some queue =>
    have hqueue' : s.erase.queue.append nbuf b = some queue := hqueue
    rw [hqueue']
    simp only [apply_ite (Option.map State.erase)]
    refine if_congr Iff.rfl ?_ ?_
    · have hwait : State.erase ∘ (fun t : State nbuf P D => wait t p b s.entered.length) =
          (fun t => wait t p b s.entered.length) ∘ State.erase :=
        funext fun t => erase_wait t p b _
      rw [Option.map_map, hwait, ← Option.map_map, ← erase_idestart]
      rfl
    · rw [Option.map_some, erase_wait]
      rfl

/-- What a process does is the same without data. -/
theorem erase_step {a : Action nbuf P D} (ha : a.ofDisk = false) (s : State nbuf P D) :
    step s.erase a.erase = (step s a).map State.erase := by
  simp only [step, apply_ite (Option.map State.erase)]
  refine if_congr Iff.rfl rfl ?_
  cases a with
  | lock p b | unlock p b =>
    simp only [Action.erase, apply_ite (Option.map State.erase)]
    refine if_congr Iff.rfl ?_ rfl
    rw [Option.map_some, erase_set]
    rfl
  | store b valid dirty dev blockno data =>
    simp only [Action.erase, apply_ite (Option.map State.erase)]
    refine if_congr Iff.rfl ?_ rfl
    rw [Option.map_some, erase_set]
    rfl
  | iderw p b =>
    simp only [Action.erase, apply_ite (Option.map State.erase)]
    exact if_congr Iff.rfl (erase_iderw s p b) rfl
  | kill p =>
    have hpc : s.erase.pc p = s.pc p := rfl
    simp only [Action.erase, hpc]
    cases s.pc p with
    | idle => rfl
    | waiting b k awake => rfl
  | resume p =>
    have hpc : s.erase.pc p = s.pc p := rfl
    simp only [Action.erase, hpc]
    cases s.pc p with
    | idle => rfl
    | waiting b k awake =>
      cases awake with
      | false => rfl
      | true => exact congrArg some (erase_wait s p b k).symm
  | finish => cases ha
  | ideintr => cases ha

end Processes

/-! ## The driver with errors -/

namespace Errors

/-- What `ideintr` has done with a buffer: `error` is the status that the disk had reported, and
`onDisk` what the disk has in the buffer's sector. -/
structure Completion (P D : Type) where
  before : Buf P D
  after : Buf P D
  onDisk : D
  error : Bool

/-- The driver with `error`, the error bits of the status register.  No step reads `results`, the
requests that the disk has ended, with their statuses, and `completions`. -/
structure State (nbuf : ℕ) (P D : Type) where
  core : Ide.State nbuf P D
  error : Bool
  results : List (Request D × Bool)
  completions : List (Completion P D)

/-- Buffer `b` after `ideintr`; `idewait(1)` looks at the status. -/
def State.completed (s : State nbuf P D) (b : Fin nbuf) : Buf P D :=
  let x := s.core.buf b
  { x with
    data := if !x.dirty && !s.error then s.core.port else x.data
    valid := true
    dirty := false }

/-- What is recorded of it. -/
def State.completion (s : State nbuf P D) (b : Fin nbuf) : Completion P D where
  before := s.core.buf b
  after := s.completed b
  onDisk := s.core.disk (s.core.buf b).drive (s.core.buf b).blockno
  error := s.error

/-- The disk ends a request and reports a status. -/
def finish (s : State nbuf P D) (error : Bool) : Option (State nbuf P D) :=
  match s.core.active with
  | none => none
  | some r =>
    let core :=
      if error then
        some { s.core with
          active := none
          irq := true
          hist := s.core.hist ++ (s.core.queue.head.map Memide.Event.iderw).toList }
      else Ide.finish s.core
    core.map fun core =>
      { s with core := core, error := error, results := s.results ++ [(r, error)] }

/-- `ideintr` up to the start of the next request. -/
def State.popped (s : State nbuf P D) (b : Fin nbuf) : Ide.State nbuf P D :=
  { s.core with
    irq := false
    queue := s.core.queue.pop b
    buf := update s.core.buf b (s.completed b)
    pc := wakeup s.core.pc b
    served := s.core.served ++ [b] }

def ideintr (s : State nbuf P D) : Option (State nbuf P D) :=
  match s.core.queue.head with
  | none => some { s with core := { s.core with irq := false } }
  | some b =>
    if !(s.core.buf b).dirty && s.core.active.isSome then none
    else
      let core :=
        match (s.popped b).queue.head with
        | none => some (s.popped b)
        | some c => idestart (s.popped b) (some c)
      core.map fun core => { s with core := core, completions := s.completions ++ [s.completion b] }

/-- One step, with the status that the disk reports if it ends a request. -/
def step [DecidableEq P] (s : State nbuf P D) (a : Action nbuf P D × Bool) :
    Option (State nbuf P D) :=
  match a with
  | (.finish, error) => if s.core.panicked.isSome then none else finish s error
  | (.ideintr, _) => if s.core.panicked.isNone && s.core.irq then ideintr s else none
  | (a, _) => (Ide.step s.core a).map fun core => { s with core := core }

/-- The state after `ideinit`. -/
def ideinit (havedisk1 : Bool) (buf : Fin nbuf → Buf P D) (disk : Bool → ℕ → D) (port : D) :
    State nbuf P D where
  core := Ide.ideinit havedisk1 buf disk port
  error := false
  results := []
  completions := []

/-- A buffer that was read is only valid with the data of its sector, and one that was dirty is
only made clean if the disk has accepted the write. -/
structure Completion.Kept (c : Completion P D) : Prop where
  read : c.before.dirty = false → c.after.valid = true → c.after.data = c.onDisk
  write : c.before.dirty = true → c.after.dirty = false → c.error = false

/-! ## The queue -/

variable {s s' : State nbuf P D} {m₀ : Mem nbuf P Unit} {q : List (Fin nbuf)}

/-- What the disk leaves: the data of a request that did not fail is on the disk or in the port. -/
theorem finish_spec {error : Bool} (h : finish s error = some s') :
    ∃ r disk port, s.core.active = some r ∧
      s' = { s with
        core := { s.core with
          active := none
          irq := true
          disk := disk
          port := port
          hist := s.core.hist ++ (s.core.queue.head.map Memide.Event.iderw).toList }
        error := error
        results := s.results ++ [(r, error)] } ∧
      (error = false → r.out.getD port = disk r.drive r.sector) := by
  rw [finish] at h
  cases hactive : s.core.active with
  | none =>
    rw [hactive] at h
    cases h
  | some r =>
    rw [hactive] at h
    obtain ⟨core, hcore, rfl⟩ := Option.map_eq_some_iff.1 h
    cases error with
    | true =>
      cases hcore
      exact ⟨r, _, _, rfl, rfl, fun hno => by cases hno⟩
    | false =>
      simp only [Bool.false_eq_true, if_false, Ide.finish, hactive] at hcore
      cases hout : r.out with
      | some d =>
        rw [hout] at hcore
        cases hcore
        exact ⟨r, _, _, rfl, rfl, fun _ => by simp [hout, setBlock]⟩
      | none =>
        rw [hout] at hcore
        cases hcore
        exact ⟨r, _, _, rfl, rfl, fun _ => by simp [hout]⟩

theorem erase_finish {error : Bool} (h : finish s error = some s') :
    Ide.finish s.core.erase = some s'.core.erase := by
  obtain ⟨r, disk, port, hactive, rfl, -⟩ := finish_spec h
  have hhist : (s.core.hist ++ (s.core.queue.head.map Memide.Event.iderw).toList).map
      Memide.Event.erase =
      s.core.erase.hist ++ (s.core.erase.queue.head.map Memide.Event.iderw).toList := by
    rw [List.map_append]
    cases hhead : s.core.queue.head <;> simp [State.erase, hhead, Memide.Event.erase]
  have hactive' : s.core.erase.active = some r.erase := congrArg (Option.map Request.erase) hactive
  simp only [Ide.finish, hactive', ← hhist]
  split
  · rfl
  · rfl

theorem idestart_spec {t t' : Ide.State nbuf P D} {b : Fin nbuf} (hactive : t.active = none)
    (h : idestart t (some b) = some t') :
    t'.queue = t.queue ∧ t'.buf = t.buf ∧ t'.irq = t.irq ∧ t'.disk = t.disk ∧ t'.port = t.port ∧
      ∀ r, t'.active = some r → r = request (t'.buf b) := by
  simp only [idestart, hactive, Option.isSome_none, Bool.false_eq_true, if_false] at h
  split at h
  · cases h
    refine ⟨rfl, rfl, rfl, rfl, rfl, fun r hr => ?_⟩
    cases hactive.symm.trans hr
  · cases h
    refine ⟨rfl, rfl, rfl, rfl, rfl, fun r hr => ?_⟩
    cases hr
    rfl

/-- `ideintr` takes the first request out of the queue and records what it does. -/
theorem ideintr_spec {b : Fin nbuf} (hhead : s.core.queue.head = some b)
    (hactive : s.core.active = none) (h : ideintr s = some s') :
    s'.error = s.error ∧ s'.results = s.results ∧
      s'.completions = s.completions ++ [s.completion b] ∧ s'.core.irq = false ∧
      ∀ c r, s'.core.queue.head = some c → s'.core.active = some r →
        r = request (s'.core.buf c) := by
  simp only [ideintr, hhead, Option.ite_none_left_eq_some] at h
  obtain ⟨core, hcore, rfl⟩ := Option.map_eq_some_iff.1 h.2
  have hactive' : (s.popped b).active = none := hactive
  refine ⟨rfl, rfl, rfl, ?_⟩
  cases hnext : (s.popped b).queue.head with
  | none =>
    rw [hnext] at hcore
    cases hcore
    refine ⟨rfl, fun c r hc => ?_⟩
    cases hnext.symm.trans hc
  | some d =>
    rw [hnext] at hcore
    obtain ⟨hqueue, -, hirq, -, -, hr⟩ := idestart_spec hactive' hcore
    refine ⟨hirq, fun c r hc => ?_⟩
    rw [hqueue, hnext] at hc
    cases hc
    exact hr r

theorem erase_ideintr (h : ideintr s = some s') :
    Ide.ideintr s.core.erase = some s'.core.erase := by
  have hhead : s.core.erase.queue.head = s.core.queue.head := rfl
  simp only [ideintr] at h
  simp only [Ide.ideintr, hhead]
  cases hb : s.core.queue.head with
  | none =>
    rw [hb] at h
    cases h
    rfl
  | some b =>
    simp only [hb, Option.ite_none_left_eq_some] at h
    obtain ⟨hready, hstart⟩ := h
    obtain ⟨core, hcore, rfl⟩ := Option.map_eq_some_iff.1 hstart
    have hnext : (match (s.popped b).erase.queue.head with
        | none => some (s.popped b).erase
        | some c => idestart (s.popped b).erase (some c)) = some core.erase := by
      have hqueue : (s.popped b).erase.queue = (s.popped b).queue := rfl
      rw [hqueue]
      cases hc : (s.popped b).queue.head with
      | none =>
        rw [hc] at hcore
        cases hcore
        rfl
      | some c =>
        rw [hc] at hcore
        exact (erase_idestart _ c).trans (congrArg (Option.map State.erase) hcore)
    have hpopped : (s.popped b).erase = { s.core.erase with
        irq := false
        queue := s.core.queue.pop b
        buf := update s.core.erase.buf b (s.core.erase.completed b)
        pc := wakeup s.core.pc b
        served := s.core.served ++ [b] } := by
      simp only [State.erase, State.popped, erase_update]
      rfl
    rw [hpopped] at hnext
    dsimp only
    rw [if_neg (by simpa only [State.erase, Buf.erase, Option.isSome_map] using hready)]
    exact hnext

theorem step_of_process [DecidableEq P] {a : Action nbuf P D} (ha : a.ofDisk = false)
    {error : Bool} (h : step s (a, error) = some s') :
    ∃ core, Ide.step s.core a = some core ∧ s' = { s with core := core } := by
  have hmap : (Ide.step s.core a).map (fun core => { s with core := core }) = some s' := by
    cases a with
    | finish | ideintr => cases ha
    | _ => exact h
  obtain ⟨core, hcore, rfl⟩ := Option.map_eq_some_iff.1 hmap
  exact ⟨core, hcore, rfl⟩

/-- **A step with errors** is a step without them, but for the data. -/
theorem step_erase [DecidableEq P] {a : Action nbuf P D × Bool} (h : step s a = some s') :
    Ide.step s.core.erase a.1.erase = some s'.core.erase := by
  obtain ⟨a, error⟩ := a
  have hpanicked : s.core.erase.panicked = s.core.panicked := rfl
  cases ha : a.ofDisk with
  | false =>
    obtain ⟨core, hcore, rfl⟩ := step_of_process ha h
    rw [erase_step ha, hcore]
    rfl
  | true =>
    cases a with
    | finish =>
      simp only [step, Option.ite_none_left_eq_some] at h
      rw [Action.erase, Ide.step, hpanicked, if_neg h.1]
      exact erase_finish h.2
    | ideintr =>
      simp only [step, Option.ite_none_right_eq_some, Bool.and_eq_true] at h
      have hirq : s.core.erase.irq = true := h.1.2
      rw [Action.erase, Ide.step, hpanicked, if_neg (by simpa using h.1.1)]
      simp only [hirq, if_true]
      exact erase_ideintr h.2
    | _ => cases ha

/-! ## Requests and statuses -/

/-- The driver keeps track: what the disk works on, has ended and is yet to be handled, and what
`ideintr` has made of it, belong to the same buffer. -/
structure Track (s : State nbuf P D) : Prop where
  active : ∀ b r, s.core.queue.head = some b → s.core.active = some r → r = request (s.core.buf b)
  fresh : ∀ b, s.core.queue.head = some b → s.core.irq = true → s.error = false →
    (s.completed b).data = s.core.disk (s.core.buf b).drive (s.core.buf b).blockno
  results : s.results = s.completions.map (fun c => (request c.before, c.error)) ++
    if s.core.irq then
      (s.core.queue.head.map fun b => (request (s.core.buf b), s.error)).toList
    else []
  done : ∀ c ∈ s.completions, c.after.valid = true ∧ c.after.dirty = false ∧
    (c.error = false → c.after.data = c.onDisk) ∧
    (c.error = true → c.after.data = c.before.data)

theorem head_cases {t : Ide.State nbuf P D} (h : Inv m₀ t.erase q) :
    (t.queue.head = none ∧ q = [] ∧ t.active = none ∧ t.irq = false) ∨
      ∃ b l, t.queue.head = some b ∧ q = b :: l ∧ (t.buf b).blockno < FSSIZE ∧
        (t.active.isSome = true ∧ t.irq = false ∨ t.active = none ∧ t.irq = true) := by
  have hhead : t.queue.head = q.head? := h.queue.head_eq
  cases q with
  | nil =>
    obtain ⟨hactive, hirq⟩ := h.empty rfl
    exact .inl ⟨hhead, rfl, Option.map_eq_none_iff.1 hactive, hirq⟩
  | cons b l =>
    obtain ⟨hblock, hrun⟩ := h.head b l rfl
    refine .inr ⟨b, l, hhead, rfl, hblock, ?_⟩
    rcases hrun with ⟨hactive, hirq⟩ | ⟨hactive, hirq⟩
    · exact .inl ⟨by simpa [State.erase] using congrArg Option.isSome hactive, hirq⟩
    · exact .inr ⟨Option.map_eq_none_iff.1 hactive, hirq⟩

theorem wait_spec [DecidableEq P] (t : Ide.State nbuf P D) (p : P) (b : Fin nbuf) (k : ℕ) :
    ∃ c, wait t p b k = t.setPc p c := by
  rw [wait]
  split
  · exact ⟨_, rfl⟩
  · exact ⟨_, rfl⟩

/-- What a process does leaves the disk alone, and the buffer that the disk works on; a first
request is started. -/
structure Frame (t t' : Ide.State nbuf P D) : Prop where
  disk : t'.disk = t.disk
  port : t'.port = t.port
  irq : t'.irq = t.irq
  busy : ∀ b, t.queue.head = some b →
    t'.queue.head = some b ∧ t'.buf b = t.buf b ∧ t'.active = t.active
  first : t.queue.head = none → ∀ b r, t'.queue.head = some b → t'.active = some r →
    r = request (t'.buf b)

theorem Frame.of_eq {t t' : Ide.State nbuf P D} (hdisk : t'.disk = t.disk)
    (hport : t'.port = t.port) (hirq : t'.irq = t.irq) (hqueue : t'.queue = t.queue)
    (hactive : t'.active = t.active) (hbuf : ∀ b, t.queue.head = some b → t'.buf b = t.buf b) :
    Frame t t' where
  disk := hdisk
  port := hport
  irq := hirq
  busy b hb := ⟨hqueue ▸ hb, hbuf b hb, hactive⟩
  first hnone b r hb := by
    rw [hqueue, hnone] at hb
    cases hb

theorem frame_iderw [DecidableEq P] {t t' : Ide.State nbuf P D} {p : P} {b : Fin nbuf}
    (h : Inv m₀ t.erase q) (hp : (t.pc p).isIdle = true) (hlock : (t.buf b).lock = some p)
    (hst : iderw t p b = some t') : Frame t t' := by
  have hb : b ∉ q := h.not_mem (p := p) hp hlock
  obtain ⟨queue, hqueue, hholds⟩ := h.append hb
  have hqueue' : t.queue.append nbuf b = some queue := hqueue
  have hhead : queue.head = (q ++ [b]).head? := hholds.head_eq
  simp only [iderw, hqueue'] at hst
  split at hst
  · cases hst
    exact .of_eq rfl rfl rfl rfl rfl fun _ _ => rfl
  split at hst
  · cases hst
    exact .of_eq rfl rfl rfl rfl rfl fun _ _ => rfl
  split at hst
  · cases hst
    exact .of_eq rfl rfl rfl rfl rfl fun _ _ => rfl
  rcases head_cases h with ⟨hnone, rfl, hactive, -⟩ | ⟨c, l, hc, rfl, -, -⟩
  · -- the request is the first one, and is started
    have hfirst : queue.head = some b := hhead
    rw [if_pos hfirst] at hst
    obtain ⟨u, hu, rfl⟩ := Option.map_eq_some_iff.1 hst
    obtain ⟨hq, -, hirq, hdisk, hport, hr⟩ := idestart_spec (by exact hactive) hu
    obtain ⟨pc, hpc⟩ := wait_spec u p b t.entered.length
    rw [hpc]
    refine ⟨hdisk, hport, hirq, fun d hd => ?_, fun _ d r hd hr' => ?_⟩
    · cases hnone.symm.trans hd
    · have hd' : queue.head = some d := (congrArg Queue.head hq).symm.trans hd
      cases hfirst.symm.trans hd'
      exact hr r hr'
  · have hcb : c ≠ b := by
      rintro rfl
      exact hb List.mem_cons_self
    rw [if_neg (by simpa [hhead] using hcb)] at hst
    obtain ⟨pc, hpc⟩ := wait_spec { t with queue := queue, entered := t.entered ++ [b] } p b
      t.entered.length
    cases hpc.symm.trans (Option.some.inj hst)
    refine ⟨rfl, rfl, rfl, fun d hd => ⟨?_, rfl, rfl⟩, fun hnone => ?_⟩
    · exact hhead.trans (hc.symm.trans hd)
    · cases hnone.symm.trans hc

theorem frame_process [DecidableEq P] {t t' : Ide.State nbuf P D} {a : Action nbuf P D}
    (ha : a.ofDisk = false) (h : Inv m₀ t.erase q) (hst : Ide.step t a = some t') :
    Frame t t' := by
  have hset : ∀ b x, t.quiet b = true → Frame t (t.set b x) := by
    intro b x hquiet
    refine .of_eq rfl rfl rfl rfl rfl fun c hc => ?_
    have hmem : c ∈ q := List.mem_of_mem_head? (h.queue.head_eq.symm.trans hc)
    exact update_of_ne (h.mem_ne hquiet hmem) _ _
  have hpc : ∀ p c, Frame t (t.setPc p c) := fun p c => .of_eq rfl rfl rfl rfl rfl fun _ _ => rfl
  rcases step_process ha hst with ⟨b, x, hquiet, rfl⟩ | ⟨p, b, hp, hlock, hst⟩ |
    ⟨p, b, k, w, -, hst⟩
  · exact hset b x hquiet
  · exact frame_iderw h hp hlock hst
  · rcases hst with rfl | ⟨-, rfl⟩
    · exact hpc p _
    · obtain ⟨c, hc⟩ := wait_spec t p b k
      rw [hc]
      exact hpc p c

theorem Track.frame {core : Ide.State nbuf P D} (h : Track s) (hinv : Inv m₀ s.core.erase q)
    (hframe : Frame s.core core) : Track { s with core := core } := by
  rcases head_cases hinv with ⟨hnone, -, -, hirq⟩ | ⟨b, l, hb, -, -, -⟩
  · have hirq' : core.irq = false := hframe.irq.trans hirq
    refine ⟨hframe.first hnone, fun b _ hb => ?_, ?_, h.done⟩
    · cases hirq'.symm.trans hb
    · simpa [hirq, hirq'] using h.results
  · obtain ⟨hb', hbuf, hactive⟩ := hframe.busy b hb
    refine ⟨fun c r hc hr => ?_, fun c hc hirq herror => ?_, ?_, h.done⟩
    · cases hb'.symm.trans hc
      rw [hbuf]
      exact h.active b r hb (hactive.symm.trans hr)
    · cases hb'.symm.trans hc
      have hfresh := h.fresh b hb (hframe.irq.symm.trans hirq) herror
      simpa only [State.completed, hbuf, hframe.disk, hframe.port] using hfresh
    · simpa only [hframe.irq, hb', hb, Option.map_some, hbuf] using h.results

theorem Track.finish {error : Bool} (h : Track s) (hinv : Inv m₀ s.core.erase q)
    (hst : finish s error = some s') : Track s' := by
  obtain ⟨r, disk, port, hactive, rfl, hdata⟩ := finish_spec hst
  rcases head_cases hinv with ⟨-, -, hnone, -⟩ | ⟨b, l, hb, -, hblock, hrun⟩
  · cases hnone.symm.trans hactive
  have hirq : s.core.irq = false := by simpa [hactive] using hrun
  obtain rfl := h.active b r hb hactive
  refine ⟨fun c r _ hr => ?_, fun c hc _ herror => ?_, ?_, h.done⟩
  · cases hr
  · cases hb.symm.trans hc
    obtain rfl : error = false := herror
    have hfetched := hdata rfl
    rw [request_sector hblock] at hfetched
    refine Eq.trans ?_ hfetched
    cases hdirty : (s.core.buf b).dirty <;> simp [State.completed, request, hdirty]
  · rw [h.results]
    simp [hirq, hb]

theorem Track.ideintr (h : Track s) (hinv : Inv m₀ s.core.erase q) (hirq : s.core.irq = true)
    (hst : ideintr s = some s') : Track s' := by
  rcases head_cases hinv with ⟨-, -, -, hno⟩ | ⟨b, l, hb, -, -, hrun⟩
  · cases hno.symm.trans hirq
  have hactive : s.core.active = none := by simpa [hirq] using hrun
  obtain ⟨-, hresults, hcompletions, hirq', hnext⟩ := ideintr_spec hb hactive hst
  refine ⟨hnext, fun c _ hc => ?_, ?_, fun c hc => ?_⟩
  · cases hirq'.symm.trans hc
  · rw [hresults, hcompletions, hirq', h.results]
    simp [hirq, hb, State.completion]
  · rw [hcompletions, List.mem_append, List.mem_singleton] at hc
    rcases hc with hc | rfl
    · exact h.done c hc
    · refine ⟨rfl, rfl, h.fresh b hb hirq, fun herror => ?_⟩
      have herror' : s.error = true := herror
      simp [State.completion, State.completed, herror']

theorem track_step [DecidableEq P] {a : Action nbuf P D × Bool} (h : Track s)
    (hinv : Inv m₀ s.core.erase q) (hst : step s a = some s') : Track s' := by
  obtain ⟨a, error⟩ := a
  cases ha : a.ofDisk with
  | false =>
    obtain ⟨core, hcore, rfl⟩ := step_of_process ha hst
    exact h.frame hinv (frame_process ha hinv hcore)
  | true =>
    cases a with
    | finish =>
      simp only [step, Option.ite_none_left_eq_some] at hst
      exact h.finish hinv hst.2
    | ideintr =>
      simp only [step, Option.ite_none_right_eq_some, Bool.and_eq_true] at hst
      exact h.ideintr hinv hst.1.2 hst.2
    | _ => cases ha

theorem calm_of_step [DecidableEq P] {a : Action nbuf P D × Bool} (hst : step s a = some s') :
    s.core.panicked = none := by
  have hstep := step_erase hst
  simp only [Ide.step, Option.ite_none_left_eq_some] at hstep
  exact Option.not_isSome_iff_eq_none.1 hstep.1

/-! ## Errors and data -/

theorem Completion.kept_iff {c : Completion P D} (hvalid : c.after.valid = true)
    (hclean : c.after.dirty = false) (hok : c.error = false → c.after.data = c.onDisk)
    (hfail : c.error = true → c.after.data = c.before.data) :
    c.Kept ↔ (c.error = true → c.before.dirty = false ∧ c.before.data = c.onDisk) := by
  constructor
  · intro h herror
    have hdirty : c.before.dirty = false := by
      by_contra hdirty
      have hno := h.write (by simpa using hdirty) hclean
      cases hno.symm.trans herror
    exact ⟨hdirty, (hfail herror).symm.trans (h.read hdirty hvalid)⟩
  · intro h
    cases herror : c.error with
    | false => exact ⟨fun _ _ => hok herror, fun _ _ => herror⟩
    | true =>
      obtain ⟨hdirty, hdata⟩ := h herror
      refine ⟨fun _ _ => (hfail herror).trans hdata, fun hdirty' => ?_⟩
      cases hdirty.symm.trans hdirty'

/-- **Disk errors.**  In every run, the requests that `ideintr` has handled are the first ones that
the disk has ended, each with its own status.  Errors are not turned into data exactly if those that
failed were reads into buffers that had the data of their sectors already. -/
theorem errors_kept_iff [DecidableEq P] {havedisk1 : Bool} {buf : Fin nbuf → Buf P D}
    {disk : Bool → ℕ → D} {port : D} {acts : List (Action nbuf P D × Bool)}
    (hrun : exec step (ideinit havedisk1 buf disk port) acts = some s) :
    s.completions.map (fun c => (request c.before, c.error)) <+: s.results ∧
      ((∀ c ∈ s.completions, c.Kept) ↔
        ∀ c ∈ s.completions, c.error = true →
          c.before.dirty = false ∧ c.before.data = c.onDisk) := by
  have htrack := exec_invariant
    (I := fun s => Track s ∧ (s.core.panicked = none →
      ∃ q, Inv ⟨fun b => (buf b).erase, fun _ _ => ()⟩ s.core.erase q))
    (fun s a s' hs _ hst => ?_) ⟨?_, fun _ => ⟨[], inv_ideinit havedisk1 _ _ ()⟩⟩ along_true hrun
  · refine ⟨⟨_, htrack.1.results.symm⟩, forall₂_congr fun c hc => ?_⟩
    obtain ⟨hvalid, hclean, hok, hfail⟩ := htrack.1.done c hc
    exact Completion.kept_iff hvalid hclean hok hfail
  · obtain ⟨q, hq⟩ := hs.2 (calm_of_step hst)
    exact ⟨track_step hs.1 hq hst, fun hcalm => inv_step hq (step_erase hst) hcalm⟩
  · exact ⟨fun b r hb => (by cases hb), fun b hb => (by cases hb), rfl, fun c hc => (by cases hc)⟩

/-- One buffer for sector 5 of disk 0, with the data 1. -/
def stale (dirty : Bool) (_ : Fin 1) : Buf Unit ℕ := ⟨false, dirty, 0, 5, none, 1⟩

/-- A process reads or writes it, and the disk reports `error`. -/
def oneRequest (error : Bool) : List (Action 1 Unit ℕ × Bool) :=
  let b : Fin 1 := ⟨0, by decide⟩
  [(.lock () b, false), (.iderw () b, false), (.finish, error), (.ideintr, false)]

theorem errors_kept_read :
    ∃ s, exec step (ideinit false (stale false) (fun _ _ => 7) 0) (oneRequest false) = some s ∧
      ∀ c ∈ s.completions, c.Kept := by
  have hrun : ∃ s, exec step (ideinit false (stale false) (fun _ _ => 7) 0) (oneRequest false) =
      some s ∧ s.completions.map (·.error) = [false] := ⟨_, rfl, rfl⟩
  obtain ⟨s, hrun, herror⟩ := hrun
  refine ⟨s, hrun, (errors_kept_iff hrun).2.2 fun c hc hyes => ?_⟩
  have hmem := List.mem_map_of_mem (f := (·.error)) hc
  rw [herror, List.mem_singleton] at hmem
  cases hmem.symm.trans hyes

/-- A read that fails makes the buffer valid with data that the sector does not have, and a write
that fails makes it clean. -/
theorem errors_lost :
    (∃ s, exec step (ideinit false (stale false) (fun _ _ => 7) 0) (oneRequest true) = some s ∧
      s.completions.map (fun c => (c.after.valid, c.after.data, c.onDisk)) = [(true, 1, 7)]) ∧
    ∃ s, exec step (ideinit false (stale true) (fun _ _ => 7) 0) (oneRequest true) = some s ∧
      s.completions.map (fun c => (c.before.dirty, c.after.dirty, c.onDisk)) =
        [(true, false, 7)] :=
  ⟨⟨_, rfl, rfl⟩, _, rfl, rfl⟩

end Errors

end Xv6.Ide
