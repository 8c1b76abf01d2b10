import Xv6.Pipes.Model

/-!
# A pipe is a lossless FIFO

What was written and not yet read is in `data`, from `nread` on.  The counters run modulo
2³² and `PIPESIZE` divides 2³², so nothing changes when they wrap around.

## Main results

* `Fifo.step` — every step keeps the history and the buffer in agreement.
* `pipe_fifo` — what was read is a prefix of what was written, and the rest is in the pipe.
-/

namespace Xv6.Pipes

open Machine

variable {k : ℕ} {s s' : State k} {i : Fin k}

/-- The pipe holds what was written and not yet read. -/
def Fifo (s : State k) : Prop :=
  ∃ l, s.pipe.toRingBuffer.Holds l ∧ s.written = s.read ++ l

theorem Fifo.runRead (h : Fifo s) (i : Fin k) (n : ℕ) (kl : Killing) :
    Fifo (s.runRead i n kl) := by
  obtain ⟨l, hl, hw⟩ := h
  obtain ⟨hb, hh, -, -⟩ := copy_spec hl n
  unfold State.runRead piperead
  split_ifs
  · exact ⟨l, hl, hw⟩
  · exact ⟨l, hl, hw⟩
  · exact ⟨l.drop n, hh, by simp [hb, hw]⟩

theorem Fifo.runWrite (h : Fifo s) (i : Fin k) (bs : List UInt8) (kl : Killing) :
    Fifo (s.runWrite i bs kl) := by
  obtain ⟨l, hl, hw⟩ := h
  obtain ⟨-, hh, -, -⟩ := store_spec hl bs
  have hstored : s.written ++ bs.take (store s.pipe bs).2 =
      s.read ++ (l ++ bs.take (store s.pipe bs).2) := by simp [hw]
  unfold State.runWrite pipewrite
  dsimp only
  split_ifs with hm
  · refine ⟨_, hh, ?_⟩
    rwa [hm, List.take_length] at hstored ⊢
  · exact ⟨_, hh, hstored⟩
  · exact ⟨_, hh, hstored⟩

/-- **One step.** -/
theorem Fifo.step {a : Action k} (h : Fifo s) (hs : step s a = some s') : Fifo s' := by
  cases step_cases hs with
  | read i n kl _ _ => exact h.runRead i n kl
  | write i bs kl _ _ => exact h.runWrite i bs kl
  | resumeRead i n kl _ _ => exact h.runRead i n kl
  | resumeWrite i bs kl _ _ => exact h.runWrite i bs kl
  | closeWrite _ => exact h
  | closeRead _ => exact h
  | kill i => exact h

theorem fifo_init (k : ℕ) (data : Fin PIPESIZE → UInt8) : Fifo (init k data) :=
  ⟨[], RingBuffer.holds_nil rfl, rfl⟩

/-- `piperead` returns 0 only at the end of what was written. -/
theorem piperead_eq_zero {p : Pipe} {l : List UInt8} (h : p.toRingBuffer.Holds l) {killed : Bool}
    {n : ℕ} (hn : 0 < n) (h0 : (piperead p killed n).value = some 0) :
    l = [] ∧ p.writeopen = false := by
  unfold piperead at h0
  split_ifs at h0 with hempty hk
  · simp [ReadOutcome.value] at h0
  · simp [ReadOutcome.value] at h0
  · have hnil : l.take n = [] := by
      rw [← (copy_spec h n).1]
      simpa [ReadOutcome.value] using h0
    have hl : l = [] := by
      rcases List.take_eq_nil_iff.mp hnil with rfl | hl
      · omega
      · exact hl
    rw [h.empty_iff PIPESIZE_lt] at hempty
    simpa [hl] using hempty

/-- **A pipe is a lossless FIFO.**  For any number of readers and writers, any lengths and any
interleaving, what all calls of `piperead` returned is a prefix of what all calls of
`pipewrite` stored, and the rest, `nwrite - nread` and at most `PIPESIZE` bytes, is in
`data`.  `piperead` returns 0 for a positive `n` only when every written byte has been
read and the write end is closed. -/
theorem pipe_fifo (k : ℕ) (data : Fin PIPESIZE → UInt8) (xs : List (Action k)) :
    Throughout step (fun s =>
      (∃ l, s.written = s.read ++ l ∧ l.length = (s.pipe.nwrite - s.pipe.nread).toNat ∧
        l.length ≤ PIPESIZE ∧ ∀ j (hj : j < l.length),
          s.pipe.data (Fin.ofNat PIPESIZE (s.pipe.nread.toNat + j)) = l[j]) ∧
      ∀ killed n, 0 < n → (piperead s.pipe killed n).value = some 0 →
        s.written = s.read ∧ s.pipe.writeopen = false) (init k data) xs := by
  have hinv : Throughout step Fifo (init k data) xs :=
    throughout_invariant (fun _ _ _ h _ hs => h.step hs) (fifo_init k data) along_true
  refine hinv.mono fun s h => ?_
  obtain ⟨l, hl, hw⟩ := h
  constructor
  · exact ⟨l, hw, (hl.length_eq PIPESIZE_lt).symm, hl.length_le,
      fun j hj => hl.get_ofNat PIPESIZE_dvd hj⟩
  · intro killed n hn h0
    obtain ⟨rfl, hopen⟩ := piperead_eq_zero hl hn h0
    exact ⟨by simpa using hw, hopen⟩

end Xv6.Pipes
