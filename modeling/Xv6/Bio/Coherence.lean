import Xv6.Bio.Model
import Xv6.Lib.Machine
import Xv6.Lib.Tally
import Mathlib.Data.Fintype.Card

/-!
# Coherence of the buffer cache

A buffer that is in use or dirty stays with its block, because `refcnt` counts every process
between its `bget` and the end of its `brelse`.  From this follow, for every interleaving,
that a block has one buffer at most and that a valid buffer holds what was last stored for
its block; a block with no valid buffer has its data on disk.

## Main definitions

* `Counts`, `Locks`, `Content` — the three parts of the invariant.
* `Coherent` — what the cache promises.

## Main results

* `inv_step` — every step keeps the invariant.
* `cache_coherent` — the promise holds after every run.
-/

namespace Xv6.Bio

open Function LinkedRing Machine

variable {n : ℕ} {Data : Type} {s s' : State n Data} {p q : Fin n} {i j : Fin NBUF} {b : ℕ}
  {disk₀ : ℕ → Data}

/-! ## Updates -/

namespace State

@[simp, grind =] theorem setBuf_buf (s : State n Data) (i j : Fin NBUF) (x : Buf n Data) :
    (s.setBuf i x).buf j = if j = i then x else s.buf j := update_apply ..

@[simp, grind =] theorem setPc_pc (s : State n Data) (p q : Fin n) (c : Pc) :
    (s.setPc p c).pc q = if q = p then c else s.pc q := update_apply ..

@[simp, grind =] theorem setBuf_pc (s : State n Data) (i : Fin NBUF) (x : Buf n Data) (q : Fin n) :
    (s.setBuf i x).pc q = s.pc q := rfl

@[simp, grind =] theorem setPc_buf (s : State n Data) (p : Fin n) (c : Pc) (j : Fin NBUF) :
    (s.setPc p c).buf j = s.buf j := rfl

@[simp, grind =] theorem record_buf (s : State n Data) (e : Event Data) (j : Fin NBUF) :
    (s.record e).buf j = s.buf j := rfl

@[simp] theorem record_hist (s : State n Data) (e : Event Data) :
    (s.record e).hist = e :: s.hist := rfl

@[simp] theorem setBuf_hist (s : State n Data) (i : Fin NBUF) (x : Buf n Data) :
    (s.setBuf i x).hist = s.hist := rfl

@[simp] theorem setPc_hist (s : State n Data) (p : Fin n) (c : Pc) :
    (s.setPc p c).hist = s.hist := rfl

theorem setBuf_setPc_self {s : State n Data} {p : Fin n} {c : Pc} (h : s.pc p = c) (i : Fin NBUF)
    (x : Buf n Data) : (s.setBuf i x).setPc p c = s.setBuf i x := by
  subst h
  simp only [setPc, setBuf, update_eq_self]

end State

/-! ## Locks and counts -/

/-- The reference of the holder of the sleep-lock. -/
def Buf.held (x : Buf n Data) : ℕ := if x.lock = none then 0 else 1

/-- The references of a process that does not hold the sleep-lock, yet or any more. -/
def Pc.refs : Pc → Fin NBUF → ℕ
  | .acquiring j _, i | .releasing j, i => if j = i then 1 else 0
  | _, _ => 0

@[simp] theorem refs_idle (i : Fin NBUF) : Pc.idle.refs i = 0 := rfl

@[simp] theorem refs_reading (i j : Fin NBUF) (b : ℕ) : (Pc.reading i b).refs j = 0 := rfl

@[simp] theorem refs_writing (i j : Fin NBUF) : (Pc.writing i).refs j = 0 := rfl

@[simp] theorem refs_acquiring (i j : Fin NBUF) (b : ℕ) :
    (Pc.acquiring i b).refs j = if i = j then 1 else 0 := rfl

@[simp] theorem refs_releasing (i j : Fin NBUF) :
    (Pc.releasing i).refs j = if i = j then 1 else 0 := rfl

/-- `refcnt` counts the processes that use a buffer or wait for it. -/
def Counts (s : State n Data) : Prop :=
  ∀ i, (s.buf i).refcnt = (s.buf i).held + ∑ p, (s.pc p).refs i

/-- **A step of one process on one buffer keeps the counts** if it changes `refcnt` by as
much as it changes the references. -/
theorem Counts.update (h : Counts s) {c : Pc} (hbuf : ∀ j, j ≠ i → s'.buf j = s.buf j)
    (hpc : s'.pc = update s.pc p c) (hother : ∀ j, j ≠ i → c.refs j = (s.pc p).refs j)
    (hi : (s'.buf i).refcnt + ((s.buf i).held + (s.pc p).refs i) =
      (s.buf i).refcnt + ((s'.buf i).held + c.refs i)) : Counts s' := by
  intro j
  have hj := h j
  have hsum := Tally.sum_update (Finset.mem_univ p) s.pc c fun c => c.refs j
  rw [hpc]
  by_cases hji : j = i
  · subst hji
    omega
  · rw [hbuf j hji]
    rw [hother j hji] at hsum
    omega

/-- A step that changes no references keeps the counts. -/
theorem Counts.keep (h : Counts s) {x : Buf n Data} {c : Pc} (hx : x.refcnt = (s.buf i).refcnt)
    (hlock : x.lock = (s.buf i).lock) (hc : ∀ j, c.refs j = (s.pc p).refs j) :
    Counts ((s.setBuf i x).setPc p c) := by
  refine h.update (i := i) (fun j hj => by simp [hj]) rfl (fun j _ => hc j) ?_
  simp [hx, hc, Buf.held, hlock]

/-- A buffer with count 0 is nobody's. -/
theorem Counts.unused (h : Counts s) (hi : (s.buf i).refcnt = 0) :
    (s.buf i).lock = none ∧ ∀ p, (s.pc p).refs i = 0 := by
  have hsum := h i
  rw [hi] at hsum
  have hheld : (s.buf i).held = 0 := by omega
  have hrefs : ∑ p, (s.pc p).refs i = 0 := by omega
  refine ⟨?_, fun p => ?_⟩
  · by_contra hlock
    rw [Buf.held, if_neg hlock] at hheld
    cases hheld
  · exact Finset.sum_eq_zero_iff.mp hrefs p (Finset.mem_univ p)

/-- What the places of the processes say about flags and locks. -/
structure Locks (s : State n Data) : Prop where
  /-- The buffer that `bget` found is that of the block it was asked for. -/
  asked : ∀ p i b, s.pc p = .acquiring i b ∨ s.pc p = .reading i b →
    (s.buf i).dev = ROOTDEV ∧ (s.buf i).blockno = b
  reading : ∀ p i b, s.pc p = .reading i b →
    (s.buf i).lock = some p ∧ (s.buf i).valid = false ∧ (s.buf i).dirty = false
  writing : ∀ p i, s.pc p = .writing i → (s.buf i).lock = some p ∧ (s.buf i).dirty = true
  /-- Nobody has a buffer that is not valid. -/
  held : ∀ i p, (s.buf i).lock = some p → (s.buf i).valid = false → ∃ b, s.pc p = .reading i b
  dirty : ∀ i, (s.buf i).dirty = true → (s.buf i).valid = true
  valid : ∀ i, (s.buf i).valid = true → (s.buf i).dev = ROOTDEV

section

variable (h : Locks s)
include h

theorem Locks.congr (hbuf : s'.buf = s.buf) (hpc : s'.pc = s.pc) : Locks s' := by
  constructor <;> simp only [hbuf, hpc]
  · exact h.asked
  · exact h.reading
  · exact h.writing
  · exact h.held
  · exact h.dirty
  · exact h.valid

theorem Locks.hit (hp : s.pc p = .idle) (hi : (s.buf i).dev = ROOTDEV ∧ (s.buf i).blockno = b) :
    Locks ((s.setBuf i { s.buf i with refcnt := (s.buf i).refcnt + 1 }).setPc p
      (.acquiring i b)) where
  asked := by grind [h.asked]
  reading := by grind [h.reading]
  writing := by grind [h.writing]
  held := by grind [h.held]
  dirty := by grind [h.dirty]
  valid := by grind [h.valid]

/-- A buffer that nobody uses is given to block `b`. -/
theorem Locks.recycle (hp : s.pc p = .idle) (hlock : (s.buf i).lock = none)
    (hrefs : ∀ q, (s.pc q).refs i = 0) :
    Locks ((s.setBuf i { s.buf i with
      dev := ROOTDEV, blockno := b, valid := false, dirty := false, refcnt := 1 }).setPc p
        (.acquiring i b)) := by
  have hacq : ∀ q c, s.pc q ≠ .acquiring i c := by
    intro q c hq
    have hzero := hrefs q
    rw [hq, refs_acquiring, if_pos rfl] at hzero
    cases hzero
  have hread : ∀ q c, s.pc q ≠ .reading i c := by
    intro q c hq
    rw [(h.reading q i c hq).1] at hlock
    cases hlock
  constructor
  · grind [h.asked]
  · grind [h.reading]
  · grind [h.writing]
  · grind [h.held]
  · grind [h.dirty]
  · grind [h.valid]

/-- The sleep-lock is taken, and the data is there or is asked for. -/
theorem Locks.acquire (hp : s.pc p = .acquiring i b) (hlock : (s.buf i).lock = none) :
    Locks ((s.setBuf i { s.buf i with lock := some p }).setPc p
      (if (s.buf i).valid then .idle else .reading i b)) where
  asked := by grind [h.asked]
  reading := by grind [h.reading, h.dirty]
  writing := by grind [h.writing]
  held := by grind [h.held]
  dirty := by grind [h.dirty]
  valid := by grind [h.valid]

/-- The transfer for the process that waits in `iderw` is done. -/
theorem Locks.transfer (hp : s.pc p = .reading i b ∨ s.pc p = .writing i) (x : Data) :
    Locks ((s.setBuf i { s.buf i with
      valid := true, dirty := false, data := x }).setPc p .idle) := by
  have hlock : (s.buf i).lock = some p :=
    hp.elim (fun hp => (h.reading p i b hp).1) fun hp => (h.writing p i hp).1
  have hdev : (s.buf i).dev = ROOTDEV :=
    hp.elim (fun hp => (h.asked p i b (.inr hp)).1) fun hp =>
      h.valid i (h.dirty i (h.writing p i hp).2)
  constructor
  · grind [h.asked]
  · grind [h.reading]
  · grind [h.writing]
  · grind [h.held]
  · grind [h.dirty]
  · grind [h.valid]

/-- A process that has a buffer has valid data. -/
theorem Locks.valid_of_has (hhas : s.Has p i) : (s.buf i).valid = true := by
  obtain ⟨hp, hlock⟩ := hhas
  by_contra hv
  obtain ⟨b, hb⟩ := h.held i p hlock (by simpa using hv)
  rw [hp] at hb
  cases hb

/-- A process stores into a buffer that it has, or logs it. -/
theorem Locks.store (hhas : s.Has p i) (x : Data) (d : Bool) (c : Pc)
    (hc : c = .idle ∨ c = .writing i ∧ d = true) : Locks ((s.setBuf i { s.buf i with
      data := x, dirty := d }).setPc p c) := by
  have hv := h.valid_of_has hhas
  obtain ⟨hp, hlock⟩ := hhas
  constructor
  · grind [h.asked]
  · grind [h.reading]
  · grind [h.writing]
  · grind [h.held]
  · grind [h.dirty]
  · grind [h.valid]

theorem Locks.release (hhas : s.Has p i) :
    Locks ((s.setBuf i { s.buf i with lock := none }).setPc p (.releasing i)) := by
  obtain ⟨hp, hlock⟩ := hhas
  constructor
  · grind [h.asked]
  · grind [h.reading]
  · grind [h.writing]
  · grind [h.held]
  · grind [h.dirty]
  · grind [h.valid]

theorem Locks.unref (hp : s.pc p = .releasing i) (k : ℕ) :
    Locks ((s.setBuf i { s.buf i with refcnt := k }).setPc p .idle) where
  asked := by grind [h.asked]
  reading := by grind [h.reading]
  writing := by grind [h.writing]
  held := by grind [h.held]
  dirty := by grind [h.dirty]
  valid := by grind [h.valid]

end

/-! ## Contents -/

/-- The contents of buffers and disk are what the events say. -/
structure Content (disk₀ : ℕ → Data) (s : State n Data) : Prop where
  unique : ∀ i j, (s.buf i).dev = ROOTDEV → (s.buf j).dev = ROOTDEV →
    (s.buf i).blockno = (s.buf j).blockno → i = j
  cached : ∀ i, (s.buf i).valid = true →
    (s.buf i).data = expected disk₀ s.hist (s.buf i).blockno
  uncached : ∀ b, (∀ i, (s.buf i).dev = ROOTDEV → (s.buf i).blockno = b →
    (s.buf i).valid = false) → expected disk₀ s.hist b = s.disk b
  disk : ∀ b, onDisk disk₀ s.hist b = s.disk b
  reads : ReadsRight disk₀ s.hist

section

variable (h : Content disk₀ s)
include h

/-- Locks, counts and `B_DIRTY` have nothing to do with contents. -/
theorem Content.congr (hvalid : ∀ j, (s'.buf j).valid = (s.buf j).valid)
    (hdev : ∀ j, (s'.buf j).dev = (s.buf j).dev)
    (hblockno : ∀ j, (s'.buf j).blockno = (s.buf j).blockno)
    (hdata : ∀ j, (s'.buf j).data = (s.buf j).data) (hdisk : s'.disk = s.disk)
    (hhist : s'.hist = s.hist) : Content disk₀ s' where
  unique j k := by
    rw [hdev, hdev, hblockno, hblockno]
    exact h.unique j k
  cached j := by
    rw [hvalid, hdata, hblockno, hhist]
    exact h.cached j
  uncached b hb := by
    simp only [hvalid, hdev, hblockno] at hb
    rw [hhist, hdisk]
    exact h.uncached b hb
  disk := by
    rw [hhist, hdisk]
    exact h.disk
  reads := by
    rw [hhist]
    exact h.reads

/-- A buffer is given to a block that is not cached; what it held is on disk only. -/
theorem Content.recycle (hl : Locks s)
    (hb : ∀ j, ¬ ((s.buf j).dev = ROOTDEV ∧ (s.buf j).blockno = b)) (c : Pc) :
    Content disk₀ (((s.setBuf i { s.buf i with
      dev := ROOTDEV, blockno := b, valid := false, dirty := false, refcnt := 1 }).setPc p
        c).record (.evict (s.buf i).dev (s.buf i).blockno)) where
  unique j k hj hk hjk := by grind [h.unique]
  cached j hj := by
    by_cases hji : j = i
    · simp [hji] at hj
    · simp only [State.record_buf, State.setPc_buf, State.setBuf_buf, if_neg hji,
        State.record_hist, State.setPc_hist, State.setBuf_hist, expected] at hj ⊢
      -- The block of `i` is not that of `j`.
      rw [if_neg fun hi => hji (h.unique j i (hl.valid j hj) hi.1 hi.2.symm)]
      exact h.cached j hj
  uncached d hd := by
    simp only [State.record_hist, State.setPc_hist, State.setBuf_hist, expected]
    split
    · exact h.disk d
    · rename_i hi
      refine h.uncached d fun j hdev hblk => ?_
      have hji : j ≠ i := by
        rintro rfl
        exact hi ⟨hdev, hblk⟩
      have hj := hd j
      simp only [State.record_buf, State.setPc_buf, State.setBuf_buf, if_neg hji] at hj
      exact hj hdev hblk
  disk := h.disk
  reads := h.reads

/-- `bread` returns the data of a valid buffer. -/
theorem Content.returned (hv : (s.buf i).valid = true) (hb : (s.buf i).blockno = b) (p : Fin n) :
    Content disk₀ (returned s p i b) where
  unique := h.unique
  cached := h.cached
  uncached := h.uncached
  disk := h.disk
  reads := ⟨hb ▸ h.cached i hv, h.reads⟩

/-- A buffer is read from disk. -/
theorem Content.fill (hv : (s.buf i).valid = false) (hdev : (s.buf i).dev = ROOTDEV) :
    Content disk₀ (s.setBuf i { s.buf i with
      data := s.disk (s.buf i).blockno, valid := true, dirty := false }) where
  unique j k hj hk hjk := by grind [h.unique]
  cached j hj := by
    by_cases hji : j = i
    · subst hji
      simp only [State.setBuf_buf, if_true, State.setBuf_hist]
      refine (h.uncached _ fun k hk hblk => ?_).symm
      rw [h.unique k j hk hdev hblk]
      exact hv
    · simp only [State.setBuf_buf, if_neg hji] at hj ⊢
      exact h.cached j hj
  uncached d hd := by
    refine h.uncached d fun j hj hblk => ?_
    have hd' := hd j
    by_cases hji : j = i
    · subst hji
      exact hv
    · simp only [State.setBuf_buf, if_neg hji] at hd'
      exact hd' hj hblk
  disk := h.disk
  reads := h.reads

/-- A buffer is written to disk. -/
theorem Content.flush (hl : Locks s) (hv : (s.buf i).valid = true) :
    Content disk₀ { (s.setBuf i { s.buf i with valid := true, dirty := false }).record
      (.write (s.buf i).blockno (s.buf i).data) with
      disk := update s.disk (s.buf i).blockno (s.buf i).data } where
  unique j k hj hk hjk := by grind [h.unique]
  cached j hj := by
    simp only [State.record_buf, State.setBuf_buf, State.record_hist, State.setBuf_hist,
      expected] at hj ⊢
    grind [h.cached]
  uncached d hd := by
    have hne : d ≠ (s.buf i).blockno := by
      rintro rfl
      have hi := hd i
      simp only [State.record_buf, State.setBuf_buf, if_true] at hi
      exact Bool.noConfusion (hi (hl.valid i hv) trivial)
    simp only [State.record_hist, State.setBuf_hist, expected, update_of_ne hne]
    refine h.uncached d fun j hj hblk => ?_
    have hd' := hd j
    have hji : j ≠ i := by
      rintro rfl
      exact hne hblk.symm
    simp only [State.record_buf, State.setBuf_buf, if_neg hji] at hd'
    exact hd' hj hblk
  disk d := by
    simp only [State.record_hist, State.setBuf_hist, onDisk, update_apply, h.disk d]
    exact if_congr eq_comm rfl rfl
  reads := h.reads

/-- A process stores into a buffer. -/
theorem Content.store (hl : Locks s) (hv : (s.buf i).valid = true) (x : Data) :
    Content disk₀ ((s.setBuf i { s.buf i with data := x }).record
      (.store (s.buf i).blockno x)) where
  unique j k hj hk hjk := by grind [h.unique]
  cached j hj := by
    by_cases hji : j = i
    · subst hji
      simp [expected]
    · simp only [State.record_buf, State.setBuf_buf, if_neg hji, State.record_hist,
        State.setBuf_hist, expected] at hj ⊢
      rw [if_neg fun hblk => hji (h.unique j i (hl.valid j hj) (hl.valid i hv) hblk.symm)]
      exact h.cached j hj
  uncached d hd := by
    have hne : (s.buf i).blockno ≠ d := by
      rintro rfl
      have hi := hd i
      simp only [State.record_buf, State.setBuf_buf, if_true] at hi
      exact Bool.noConfusion ((hi (hl.valid i hv) trivial).symm.trans hv)
    simp only [State.record_hist, State.setBuf_hist, expected, if_neg hne]
    refine h.uncached d fun j hj hblk => ?_
    have hd' := hd j
    have hji : j ≠ i := by
      rintro rfl
      exact hne hblk
    simp only [State.record_buf, State.setBuf_buf, if_neg hji] at hd'
    exact hd' hj hblk
  disk := h.disk
  reads := h.reads

end

/-! ## Steps -/

/-- The invariant. -/
structure Inv (disk₀ : ℕ → Data) (s : State n Data) : Prop where
  ring : ∃ l, s.links.Ring l ∧ ∀ i, i ∈ l
  counts : Counts s
  locks : Locks s
  content : Content disk₀ s
  calm : s.panicked = none ∨ s.panicked = some .bgetNoBuffers

section

variable (h : Inv disk₀ s)
include h

/-- The section of `bget` comes to an end: its scans are over when all buffers are seen. -/
theorem Inv.bget (hp : s.pc p = .idle) (b : ℕ) :
    ∃ s', bget s p ROOTDEV b = some s' ∧ Inv disk₀ s' := by
  obtain ⟨l, hring, hall⟩ := h.ring
  have hlen : l.length ≤ NBUF := by simpa using hring.nodup.length_le_card
  unfold Bio.bget
  rw [hring.scan_next hlen]
  cases hhit : l.find? fun i => decide ((s.buf i).dev = ROOTDEV ∧ (s.buf i).blockno = b) with
  | some i =>
    have hi : (s.buf i).dev = ROOTDEV ∧ (s.buf i).blockno = b := by
      simpa using List.find?_some hhit
    refine ⟨_, rfl, ⟨l, hring, hall⟩, ?_, h.locks.hit hp hi, ?_, h.calm⟩
    · refine h.counts.update (i := i) (fun j hj => by simp [hj]) rfl (fun j hj => ?_) ?_
      · simp [hp, hj.symm]
      · simp [hp, Buf.held]
        omega
    · refine h.content.congr ?_ ?_ ?_ ?_ rfl rfl <;> grind
  | none =>
    have hmiss : ∀ j, ¬ ((s.buf j).dev = ROOTDEV ∧ (s.buf j).blockno = b) := fun j => by
      simpa using List.find?_eq_none.mp hhit j (hall j)
    dsimp only
    rw [hring.scan_prev hlen]
    cases hfree : l.reverse.find? fun i =>
        decide ((s.buf i).refcnt = 0 ∧ (s.buf i).dirty = false) with
    | none => exact ⟨_, rfl, ⟨l, hring, hall⟩, h.counts, h.locks.congr rfl rfl,
        h.content.congr (fun _ => rfl) (fun _ => rfl) (fun _ => rfl) (fun _ => rfl) rfl rfl,
        .inr rfl⟩
    | some i =>
      have hi : (s.buf i).refcnt = 0 ∧ (s.buf i).dirty = false := by
        simpa using List.find?_some hfree
      obtain ⟨hlock, hrefs⟩ := h.counts.unused hi.1
      refine ⟨_, rfl, ⟨l, hring, hall⟩, ?_, (h.locks.recycle hp hlock hrefs).congr rfl rfl,
        h.content.recycle h.locks hmiss _, h.calm⟩
      refine h.counts.update (i := i) (fun j hj => by simp [hj]) rfl (fun j hj => ?_) ?_
      · simp [hp, hj.symm]
      · simp [hp, Buf.held, hi.1, hlock]

theorem Inv.acquire (hst : acquire s p = some s') : Inv disk₀ s' := by
  unfold Bio.acquire at hst
  split at hst
  · rename_i i b hp
    split at hst
    · rename_i hlock
      have hcount : ∀ c : Pc, (∀ j, c.refs j = 0) → Counts ((s.setBuf i
          { s.buf i with lock := some p }).setPc p c) := by
        intro c hc
        refine h.counts.update (i := i) (fun j hj => by simp [hj]) rfl (fun j hj => ?_) ?_
        · simp [hp, hc, hj.symm]
        · simp [hp, hc, Buf.held, hlock]
      have hlocks := h.locks.acquire hp hlock
      have hcontent : Content disk₀ (s.setBuf i { s.buf i with lock := some p }) := by
        refine h.content.congr ?_ ?_ ?_ ?_ rfl rfl <;> grind
      simp only [State.setBuf_buf, if_true] at hst
      split at hst
      · rename_i hv
        rw [if_pos hv] at hlocks
        cases hst
        refine ⟨h.ring, hcount .idle fun _ => rfl, hlocks.congr rfl rfl,
          hcontent.returned (by simpa using hv) ?_ p, h.calm⟩
        simpa using (h.locks.asked p i b (.inl hp)).2
      · rename_i hv
        rw [if_neg hv] at hlocks
        have hide : iderw (s.setBuf i { s.buf i with lock := some p }) p i (.reading i b) =
            (s.setBuf i { s.buf i with lock := some p }).setPc p (.reading i b) := by
          simp [iderw, hv]
        rw [hide] at hst
        cases hst
        refine ⟨h.ring, hcount _ fun _ => rfl, hlocks, ?_, h.calm⟩
        exact hcontent.congr (fun _ => rfl) (fun _ => rfl) (fun _ => rfl) (fun _ => rfl) rfl rfl
    · cases hst
  · cases hst

theorem Inv.transfer (hst : transfer s p = some s') : Inv disk₀ s' := by
  unfold Bio.transfer at hst
  split at hst
  · rename_i i b hp
    obtain ⟨hlock, hv, hd⟩ := h.locks.reading p i b hp
    obtain ⟨hdev, hb⟩ := h.locks.asked p i b (.inr hp)
    have hide : ideintr s i = s.setBuf i { s.buf i with
        data := s.disk (s.buf i).blockno, valid := true, dirty := false } := by
      simp [ideintr, hd]
    rw [hide] at hst
    cases hst
    refine ⟨h.ring, ?_, (h.locks.transfer (.inl hp) _).congr rfl rfl,
      (h.content.fill hv hdev).returned (by simp) (by simpa using hb) p, h.calm⟩
    exact h.counts.keep rfl rfl fun _ => by simp [hp]
  · rename_i i hp
    obtain ⟨hlock, hd⟩ := h.locks.writing p i hp
    have hide : ideintr s i = { (s.setBuf i { s.buf i with
        valid := true, dirty := false }).record (.write (s.buf i).blockno (s.buf i).data) with
        disk := update s.disk (s.buf i).blockno (s.buf i).data } := by
      simp [ideintr, hd]
    rw [hide] at hst
    cases hst
    refine ⟨h.ring, ?_, (h.locks.transfer (b := 0) (.inr hp) (s.buf i).data).congr rfl rfl,
      (h.content.flush h.locks (h.locks.dirty i hd)).congr (fun _ => rfl) (fun _ => rfl)
        (fun _ => rfl) (fun _ => rfl) rfl rfl, h.calm⟩
    exact h.counts.keep rfl rfl fun _ => by simp [hp]
  · cases hst

theorem Inv.modify {x : Data} (hst : modify s p i x = some s') :
    Inv disk₀ s' := by
  unfold Bio.modify at hst
  split at hst
  · rename_i hhas
    cases hst
    have hlocks := h.locks.store hhas x (s.buf i).dirty .idle (.inl rfl)
    have hcounts := h.counts.keep (p := p) (c := s.pc p) (x := { s.buf i with data := x }) rfl rfl
      fun _ => rfl
    rw [State.setBuf_setPc_self hhas.1] at hlocks
    rw [State.setBuf_setPc_self rfl] at hcounts
    exact ⟨h.ring, hcounts, hlocks.congr rfl rfl,
      h.content.store h.locks (h.locks.valid_of_has hhas) x, h.calm⟩
  · cases hst

theorem Inv.logWrite (hst : logWrite s p i = some s') : Inv disk₀ s' := by
  unfold Bio.logWrite at hst
  split at hst
  · rename_i hhas
    cases hst
    have hlocks := h.locks.store hhas (s.buf i).data true .idle (.inl rfl)
    have hcounts := h.counts.keep (p := p) (c := s.pc p) (x := { s.buf i with dirty := true })
      rfl rfl fun _ => rfl
    rw [State.setBuf_setPc_self hhas.1] at hlocks
    rw [State.setBuf_setPc_self rfl] at hcounts
    refine ⟨h.ring, hcounts, hlocks, ?_, h.calm⟩
    refine h.content.congr ?_ ?_ ?_ ?_ rfl rfl <;> grind
  · cases hst

theorem Inv.bwrite (hst : bwrite s p i = some s') : Inv disk₀ s' := by
  unfold Bio.bwrite at hst
  split at hst
  · rename_i hhas
    have hide : iderw (s.setBuf i { s.buf i with dirty := true }) p i (.writing i) =
        (s.setBuf i { s.buf i with dirty := true }).setPc p (.writing i) := by
      simp [iderw, hhas.2]
    rw [if_neg (by simp [hhas.2]), hide] at hst
    cases hst
    refine ⟨h.ring, h.counts.keep rfl rfl fun _ => by rw [hhas.1]; rfl,
      h.locks.store hhas (s.buf i).data true (.writing i) (.inr ⟨rfl, rfl⟩), ?_, h.calm⟩
    refine h.content.congr ?_ ?_ ?_ ?_ rfl rfl <;> grind
  · cases hst

theorem Inv.brelse (hst : brelse s p i = some s') : Inv disk₀ s' := by
  unfold Bio.brelse at hst
  split at hst
  · rename_i hhas
    rw [if_neg (by simp [hhas.2])] at hst
    cases hst
    refine ⟨h.ring, ?_, h.locks.release hhas, ?_, h.calm⟩
    · refine h.counts.update (i := i) (fun j hj => by simp [hj]) rfl (fun j hj => ?_) ?_
      · simp [hhas.1, hj.symm]
      · simp [hhas.1, hhas.2, Buf.held]
    · refine h.content.congr ?_ ?_ ?_ ?_ rfl rfl <;> grind
  · cases hst

theorem Inv.unref (hst : unref s p = some s') : Inv disk₀ s' := by
  unfold Bio.unref at hst
  split at hst
  · rename_i i hp
    -- The process that leaves is counted.
    have hpos : 0 < (s.buf i).refcnt := by
      refine Nat.pos_of_ne_zero fun hzero => ?_
      have hp' := (h.counts.unused hzero).2 p
      rw [hp, refs_releasing, if_pos rfl] at hp'
      cases hp'
    have hcounts : Counts ((s.setBuf i
        { s.buf i with refcnt := (s.buf i).refcnt - 1 }).setPc p .idle) := by
      refine h.counts.update (i := i) (fun j hj => by simp [hj]) rfl (fun j hj => ?_) ?_
      · simp [hp, hj.symm]
      · simp only [State.setPc_buf, State.setBuf_buf, if_true, hp, refs_releasing, refs_idle,
          Buf.held]
        omega
    have hlocks := h.locks.unref hp ((s.buf i).refcnt - 1)
    have hcontent : Content disk₀ ((s.setBuf i
        { s.buf i with refcnt := (s.buf i).refcnt - 1 }).setPc p .idle) := by
      refine h.content.congr ?_ ?_ ?_ ?_ rfl rfl <;> grind
    dsimp only at hst
    split at hst
    · cases hst
      obtain ⟨l, hring, hall⟩ := h.ring
      obtain ⟨l', hring', hmem⟩ := hring.moveFront (hall i)
      exact ⟨⟨l', hring', fun j => (hmem j).mpr (hall j)⟩, hcounts, hlocks.congr rfl rfl,
        hcontent.congr (fun _ => rfl) (fun _ => rfl) (fun _ => rfl) (fun _ => rfl) rfl rfl, h.calm⟩
    · cases hst
      exact ⟨h.ring, hcounts, hlocks, hcontent, h.calm⟩
  · cases hst

/-- **Every step keeps the invariant.** -/
theorem inv_step {a : Action n Data} (hst : step s a = some s') :
    Inv disk₀ s' := by
  unfold step at hst
  split at hst
  · cases a with
    | bget p b =>
      simp only [act] at hst
      split at hst
      · rename_i hp
        obtain ⟨t, ht, hinv⟩ := h.bget hp b
        obtain rfl := Option.some.inj (ht.symm.trans hst)
        exact hinv
      · cases hst
    | acquire p => exact h.acquire hst
    | transfer p => exact h.transfer hst
    | modify p i x => exact h.modify hst
    | logWrite p i => exact h.logWrite hst
    | bwrite p i => exact h.bwrite hst
    | brelse p i => exact h.brelse hst
    | unref p => exact h.unref hst
  · cases hst

end

/-- The list that `binit` makes. -/
theorem ring_foldl (l m : List (Fin NBUF)) {L : Links (Fin NBUF)} (h : L.Ring m)
    (hnd : l.Nodup) (hm : ∀ i ∈ l, i ∉ m) :
    (l.foldl Links.pushFront L).Ring (l.reverse ++ m) := by
  induction l generalizing L m with
  | nil => exact h
  | cons i l ih =>
    obtain ⟨hi, hnd⟩ := List.nodup_cons.mp hnd
    rw [List.foldl_cons, List.reverse_cons, List.append_assoc]
    refine ih (i :: m) (h.pushFront (hm i List.mem_cons_self)) hnd fun j hj hmem => ?_
    rcases List.mem_cons.mp hmem with rfl | hmem
    · exact hi hj
    · exact hm j (List.mem_cons_of_mem _ hj) hmem

theorem inv_binit (n : ℕ) (zero : Data) (disk₀ : ℕ → Data) : Inv disk₀ (binit n zero disk₀) := by
  have hring := ring_foldl (List.finRange NBUF) [] Links.ring_empty (List.nodup_finRange NBUF)
    fun _ _ => List.not_mem_nil
  refine ⟨⟨_, hring, fun i => by simp⟩, fun i => ?_, ?_, ?_, .inl rfl⟩
  · simp [binit, Buf.held]
  · constructor <;> simp [binit]
  · constructor <;> simp [binit, expected, onDisk, ReadsRight, ROOTDEV]

/-! ## Coherence -/

/-- The cache is coherent. -/
structure Coherent (disk₀ : ℕ → Data) (s : State n Data) : Prop where
  /-- Every buffer is on the list once, both ways. -/
  ring : ∃ l, s.links.Ring l ∧ ∀ i, i ∈ l
  /-- The scans of `bget` end. -/
  ends : s.panicked = none → ∀ p b, s.pc p = .idle → (step s (.bget p b)).isSome
  /-- A block has one buffer at most. -/
  unique : ∀ i j, (s.buf i).dev = ROOTDEV → (s.buf j).dev = ROOTDEV →
    (s.buf i).blockno = (s.buf j).blockno → i = j
  /-- No step gives away a buffer that is dirty or in use. -/
  kept : ∀ a s', step s a = some s' → ∀ i, (s.buf i).dirty = true ∨ 0 < (s.buf i).refcnt →
    (s'.buf i).dev = (s.buf i).dev ∧ (s'.buf i).blockno = (s.buf i).blockno
  /-- Every `bread` has returned the data last stored in the block's buffer or, if that was
  given away since, the data last written to disk. -/
  reads : ReadsRight disk₀ s.hist
  /-- There may be too few buffers; nothing else goes wrong. -/
  calm : s.panicked = none ∨ s.panicked = some .bgetNoBuffers

/-- `bget` gives away only a buffer that is clean and not in use. -/
theorem bget_kept {dev : ℕ} (hst : bget s p dev b = some s')
    (hi : (s.buf i).dirty = true ∨ 0 < (s.buf i).refcnt) :
    (s'.buf i).dev = (s.buf i).dev ∧ (s'.buf i).blockno = (s.buf i).blockno := by
  unfold Bio.bget at hst
  split at hst
  · cases hst
  · cases hst
    grind
  · split at hst
    · cases hst
    · cases hst
      exact ⟨rfl, rfl⟩
    · rename_i k hk
      have hfree := Links.scan_found hk
      cases hst
      grind

theorem ideintr_kept (s : State n Data) (i j : Fin NBUF) :
    ((ideintr s i).buf j).dev = (s.buf j).dev ∧
      ((ideintr s i).buf j).blockno = (s.buf j).blockno := by
  unfold ideintr
  dsimp only
  split
  · show ((s.setBuf i _).buf j).dev = _ ∧ ((s.setBuf i _).buf j).blockno = _
    grind
  · grind

theorem unref_kept (hst : unref s p = some s') (i : Fin NBUF) :
    (s'.buf i).dev = (s.buf i).dev ∧ (s'.buf i).blockno = (s.buf i).blockno := by
  unfold unref at hst
  split at hst
  · rename_i k hk
    have hbuf : s'.buf = (s.setBuf k { s.buf k with refcnt := (s.buf k).refcnt - 1 }).buf := by
      dsimp only at hst
      split at hst <;> exact Option.some.inj hst ▸ rfl
    rw [hbuf]
    grind
  · cases hst

/-- A buffer that is dirty or in use stays with its block. -/
theorem step_kept {a : Action n Data} (hst : step s a = some s')
    (hi : (s.buf i).dirty = true ∨ 0 < (s.buf i).refcnt) :
    (s'.buf i).dev = (s.buf i).dev ∧ (s'.buf i).blockno = (s.buf i).blockno := by
  unfold step at hst
  split at hst
  · cases a with
    | bget p b =>
      simp only [act] at hst
      split at hst
      · exact bget_kept hst hi
      · cases hst
    | acquire p => grind [act, acquire, returned, iderw]
    | transfer p => grind [act, transfer, returned, ideintr_kept]
    | modify p j x => grind [act, modify]
    | logWrite p j => grind [act, logWrite]
    | bwrite p j => grind [act, bwrite, iderw]
    | brelse p j => grind [act, brelse]
    | unref p => exact unref_kept hst i
  · cases hst

/-- **The buffer cache is coherent**, for any number of processes and after any steps of
theirs. -/
theorem cache_coherent {zero : Data} {acts : List (Action n Data)}
    (hrun : exec step (binit n zero disk₀) acts = some s) : Coherent disk₀ s := by
  have h := exec_invariant (fun s a s' hs _ hst => inv_step hs hst) (inv_binit n zero disk₀)
    along_true hrun
  refine ⟨h.ring, fun hcalm p b hp => ?_, h.content.unique, fun a s' hst i hi => step_kept hst hi,
    h.content.reads, h.calm⟩
  obtain ⟨t, ht, -⟩ := h.bget hp b
  simp [step, act, hcalm, hp, ht]

/-- One process changes block 5 and logs it, and another reads it. -/
def rereadRun (p q : Fin 2) (i : Fin NBUF) : List (Action 2 ℕ) :=
  [.bget p 5, .acquire p, .transfer p, .modify p i 7, .logWrite p i, .bget q 5, .brelse p i,
    .acquire q, .unref p]

theorem cache_coherent_reread : ∃ s, exec step (binit 2 0 id)
      (rereadRun ⟨0, by decide⟩ ⟨1, by decide⟩ ⟨0, by decide⟩) = some s ∧
    s.hist = [.bread 5 7, .store 5 7, .bread 5 5, .evict 0 0] ∧ Coherent id s := by
  have hrun : ∃ s, exec step (binit 2 0 id)
      (rereadRun ⟨0, by decide⟩ ⟨1, by decide⟩ ⟨0, by decide⟩) = some s ∧
      s.hist = [.bread 5 7, .store 5 7, .bread 5 5, .evict 0 0] := ⟨_, rfl, rfl⟩
  obtain ⟨s, hrun, hhist⟩ := hrun
  exact ⟨s, hrun, hhist, cache_coherent hrun⟩

/-- **No buffer is recycled under a process.**  `refcnt` counts all who use a buffer or wait for it;
so what `bget` found is still the block's buffer when its lock is taken, and is then valid. -/
theorem not_recycled (zero : Data) (acts : List (Action n Data)) :
    Throughout step (fun s => Counts s ∧
      (∀ p i b, s.pc p = .acquiring i b → (s.buf i).dev = ROOTDEV ∧ (s.buf i).blockno = b) ∧
      ∀ p i, s.Has p i → (s.buf i).valid = true) (binit n zero disk₀) acts := by
  have hinv : Throughout step (Inv disk₀) (binit n zero disk₀) acts :=
    throughout_invariant (fun _ _ _ h _ hst => inv_step h hst) (inv_binit n zero disk₀) along_true
  refine hinv.mono fun s h => ⟨h.counts, fun p i b hp => h.locks.asked p i b (.inl hp), ?_⟩
  intro p i ⟨hidle, hlock⟩
  by_contra hv
  obtain ⟨b, hb⟩ := h.locks.held i p hlock (by simpa using hv)
  rw [hidle] at hb
  cases hb

end Xv6.Bio
