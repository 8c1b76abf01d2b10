import Xv6.Param
import Xv6.Lib.Machine
import Mathlib.Data.Int.Notation
import Mathlib.Data.List.Basic
import Mathlib.Logic.Function.Basic

/-!
# The offset of a shared file

Any number of processes share one `struct file` on a regular inode and call `fileread` and
`filewrite` on it.  One step is the taking or the release of the inode's lock, the transfer
by `readi` or `writei`, or the store to `f->off` that follows it, so processes interleave in
the middle of a call, and `filewrite` gives the lock up between two chunks.

Which blocks hold the bytes, and the panic when there are none left, are left out.

## Main definitions

* `State`, `step` — the machine.
* `Chunk` — one transfer, with the range it covers.
* `Contiguous` — chunks that follow each other without gap or overlap.

## Main results

* `inv_step` — every step keeps the invariant.
* `offset_shared` — the chunks are contiguous, `f->off` is where the last one ended, and
  what a chunk wrote stays.
-/

namespace Xv6.Fs.Offset

open Function Machine

/-- `MAXFILE*BSIZE`, the most bytes of a file. -/
def maxBytes : ℕ := 140 * 512

/-- The most that `filewrite` writes in one transaction. -/
def maxChunk : ℕ := ((LOGSIZE - 1 - 1 - 2) / 2) * 512

/-- A sum of two values of type `uint`. -/
def uadd (a b : ℕ) : ℕ := (a + b) % 4294967296

/-- A regular inode. -/
structure Inode where
  size : ℕ
  data : ℕ → UInt8
  size_le : size ≤ maxBytes

/-- `readi`: how many bytes it copies; `none` stands for −1. -/
def readi (ip : Inode) (off : ℕ) (n : UInt32) : Option ℕ :=
  if ip.size < off ∨ uadd off n.toNat < off then none
  else if ip.size < uadd off n.toNat then some (ip.size - off)
  else some n.toNat

/-- The bytes from `off` on are replaced. -/
def overwrite (data : ℕ → UInt8) (off n : ℕ) (src : ℕ → UInt8) : ℕ → UInt8 :=
  fun k => if off ≤ k ∧ k < off + n then src (k - off) else data k

/-- `writei` of `n` bytes of `src`; it fails or writes all of them. -/
def writei (ip : Inode) (off n : ℕ) (src : ℕ → UInt8) : Option (ℕ × Inode) :=
  if ip.size < off ∨ uadd off n < off then none
  else if h : maxBytes < uadd off n then none
  else some (n, {
    size := if 0 < n ∧ ip.size < uadd off n then uadd off n else ip.size
    data := overwrite ip.data off n src
    size_le := by
      have hsize := ip.size_le
      split <;> omega })

/-- A transfer. -/
inductive Kind
  | read
  | write (src : ℕ → UInt8)

/-- What one call of `readi` or `writei` has moved. -/
structure Chunk where
  kind : Kind
  off : ℕ
  len : ℕ

/-- A call `filewrite(f, addr, n)`. -/
structure Write where
  n : Int32
  addr : ℕ → UInt8

/-- The calls. -/
inductive Call
  | fileread (n : Int32)
  | filewrite (w : Write)

/-- Where a process stands. -/
inductive Pc
  /-- In no call; `ret` is what the last one returned. -/
  | idle (ret : ℤ)
  /-- Before `ilock` of `fileread`. -/
  | readLock (n : UInt32)
  | readi (n : UInt32)
  /-- Before `f->off += r`. -/
  | readMove (r : Option ℕ)
  | readUnlock (r : Option ℕ)
  /-- At the test of the loop of `filewrite`, with `i` bytes written. -/
  | writeLoop (w : Write) (i : ℕ)
  | writei (w : Write) (i : ℕ)
  | writeMove (w : Write) (i n1 : ℕ) (r : Option ℕ)
  | writeUnlock (w : Write) (i n1 : ℕ) (r : Option ℕ)

/-- The state, over a type `P` of processes.  `chunks` is a history variable: the transfers,
in their order. -/
structure State (P : Type) where
  readable : Bool
  writable : Bool
  off : ℕ
  ip : Inode
  lock : Option P
  pc : P → Pc
  panicked : Bool
  chunks : List Chunk

variable {P : Type}

namespace State

def setPc [DecidableEq P] (s : State P) (p : P) (c : Pc) : State P :=
  { s with pc := update s.pc p c }

/-- A transfer of `r` bytes at `f->off` takes its place in the history; one of none leaves
no trace. -/
def record (s : State P) (kind : Kind) (r : Option ℕ) : State P :=
  { s with chunks := s.chunks ++ if 0 < r.getD 0 then [⟨kind, s.off, r.getD 0⟩] else [] }

/-- `if(r > 0) f->off += r` -/
def move (s : State P) (r : Option ℕ) : State P :=
  if 0 < r.getD 0 then { s with off := uadd s.off (r.getD 0) } else s

end State

section Steps

variable [DecidableEq P]

/-- A process calls a function when it is in none. -/
def call (s : State P) (p : P) : Call → State P
  | .fileread n => if s.readable then s.setPc p (.readLock n.toUInt32) else s.setPc p (.idle (-1))
  | .filewrite w => if s.writable then s.setPc p (.writeLoop w 0) else s.setPc p (.idle (-1))

/-- The value of a call that has moved `r` bytes, or has failed. -/
def returned : Option ℕ → ℤ
  | none => -1
  | some r => r

/-- How many bytes the next chunk of a write has. -/
def chunkLen (w : Write) (i : ℕ) : ℕ := min (w.n.toInt.toNat - i) maxChunk

/-- The next step of the function that `p` is in. -/
def go (s : State P) (p : P) : Option (State P) :=
  match s.pc p with
  | .idle _ => none
  | .readLock n =>
    if s.lock = none then some ({ s with lock := some p }.setPc p (.readi n)) else none
  | .readi n =>
    let r := readi s.ip s.off n
    some ((s.record .read r).setPc p (.readMove r))
  | .readMove r => some ((s.move r).setPc p (.readUnlock r))
  | .readUnlock r => some ({ s with lock := none }.setPc p (.idle (returned r)))
  | .writeLoop w i =>
    if (i : ℤ) < w.n.toInt then
      if s.lock = none then some ({ s with lock := some p }.setPc p (.writei w i)) else none
    else some (s.setPc p (.idle (if i = w.n.toInt then w.n.toInt else -1)))
  | .writei w i =>
    let src : ℕ → UInt8 := fun k => w.addr (i + k)
    let n1 := chunkLen w i
    match writei s.ip s.off n1 src with
    | none => some ((s.record (.write src) none).setPc p (.writeMove w i n1 none))
    | some (r, ip) =>
      some ({ s.record (.write src) (some r) with ip := ip }.setPc p
        (.writeMove w i n1 (some r)))
  | .writeMove w i n1 r => some ((s.move r).setPc p (.writeUnlock w i n1 r))
  | .writeUnlock w i n1 r =>
    let s : State P := { s with lock := none }
    match r with
    | none => some (s.setPc p (.idle (-1)))
    | some r =>
      if r ≠ n1 then some { s with panicked := true }
      else some (s.setPc p (.writeLoop w (i + r)))

/-- What the processes do: they call a function, or go on with the one they are in. -/
inductive Action (P : Type)
  | call (p : P) (c : Call)
  | go (p : P)

def step (s : State P) (a : Action P) : Option (State P) :=
  if s.panicked then none
  else
    match a with
    | .call p c =>
      match s.pc p with
      | .idle _ => some (call s p c)
      | _ => none
    | .go p => go s p

end Steps

/-- A file that is open, at any offset, and processes in no call. -/
def start (readable writable : Bool) (off : ℕ) (ip : Inode) : State P :=
  ⟨readable, writable, off, ip, none, fun _ => .idle 0, false, []⟩

/-! ## Chunks -/

/-- The chunks start at `a`, follow each other, and end at `b`. -/
def Contiguous : ℕ → List Chunk → ℕ → Prop
  | a, [], b => a = b
  | a, c :: cs, b => c.off = a ∧ Contiguous (a + c.len) cs b

theorem contiguous_append {a b : ℕ} {cs : List Chunk} (h : Contiguous a cs b) (kind : Kind)
    (n : ℕ) : Contiguous a (cs ++ [⟨kind, b, n⟩]) (b + n) := by
  induction cs generalizing a with
  | nil =>
    obtain rfl : a = b := h
    exact ⟨rfl, rfl⟩
  | cons c cs ih => exact ⟨h.1, ih h.2⟩

theorem Contiguous.bounds {a b : ℕ} {cs : List Chunk} (h : Contiguous a cs b) :
    a ≤ b ∧ ∀ c ∈ cs, a ≤ c.off ∧ c.off + c.len ≤ b := by
  induction cs generalizing a with
  | nil => exact ⟨Nat.le_of_eq h, fun c hc => absurd hc List.not_mem_nil⟩
  | cons c cs ih =>
    obtain ⟨hoff, hrest⟩ := h
    obtain ⟨hle, hin⟩ := ih hrest
    refine ⟨by omega, fun d hd => ?_⟩
    rcases List.mem_cons.mp hd with rfl | hd
    · omega
    · have := hin d hd
      omega

/-- No two chunks overlap. -/
theorem Contiguous.pairwise {a b : ℕ} {cs : List Chunk} (h : Contiguous a cs b) :
    cs.Pairwise fun c d => c.off + c.len ≤ d.off := by
  induction cs generalizing a with
  | nil => exact .nil
  | cons c cs ih =>
    obtain ⟨hoff, hrest⟩ := h
    refine .cons (fun d hd => ?_) (ih hrest)
    have := hrest.bounds.2 d hd
    omega

/-- How many bytes the chunks have. -/
def total (cs : List Chunk) : ℕ := (cs.map Chunk.len).foldr (· + ·) 0

theorem Contiguous.total_eq {a b : ℕ} {cs : List Chunk} (h : Contiguous a cs b) :
    b = a + total cs := by
  induction cs generalizing a with
  | nil => exact h.symm
  | cons c cs ih =>
    have := ih h.2
    simp only [total, List.map_cons, List.foldr_cons] at this ⊢
    omega

/-! ## The invariant -/

/-- Whether a process holds the inode's lock. -/
def Pc.holds : Pc → Bool
  | .readi _ | .readMove _ | .readUnlock _ | .writei _ _ | .writeMove _ _ _ _
  | .writeUnlock _ _ _ _ => true
  | _ => false

/-- The bytes that a process has moved and not yet added to `f->off`. -/
def Pc.moved : Pc → ℕ
  | .readMove r | .writeMove _ _ _ r => r.getD 0
  | _ => 0

/-- The same, for the holder of the lock. -/
def State.pending (s : State P) : ℕ :=
  match s.lock with
  | none => 0
  | some p => (s.pc p).moved

/-- What a chunk of `filewrite` has written is what it was asked to write. -/
def Pc.Full : Pc → Prop
  | .writeMove _ _ n1 r | .writeUnlock _ _ n1 r => r = none ∨ r = some n1
  | _ => True

structure Inv (off₀ : ℕ) (s : State P) : Prop where
  holder : ∀ p, (s.pc p).holds = true ↔ s.lock = some p
  chunks : Contiguous off₀ s.chunks (s.off + s.pending)
  fits : 0 < s.pending → s.off + s.pending ≤ maxBytes
  kept : ∀ c ∈ s.chunks, ∀ src, c.kind = .write src → ∀ k < c.len, s.ip.data (c.off + k) = src k
  full : ∀ p, (s.pc p).Full
  calm : s.panicked = false

variable {s s' : State P} {p : P} {off₀ : ℕ}

theorem inv_start (readable writable : Bool) (off₀ : ℕ) (ip : Inode) :
    Inv off₀ (start readable writable off₀ ip : State P) where
  holder p := by simp [start, Pc.holds]
  chunks := rfl
  fits hpos := absurd hpos (Nat.lt_irrefl 0)
  kept c hc := absurd hc List.not_mem_nil
  full _ := trivial
  calm := rfl

theorem pending_of_holder (h : Inv off₀ s) (hp : (s.pc p).holds = true) :
    s.lock = some p ∧ s.pending = (s.pc p).moved := by
  have hlock := (h.holder p).mp hp
  exact ⟨hlock, by simp only [State.pending, hlock]⟩

/-! ## Transfers -/

/-- What `readi` copies lies within the file. -/
theorem readi_bound {ip : Inode} {off r : ℕ} {n : UInt32} (h : readi ip off n = some r)
    (hr : 0 < r) : off + r ≤ maxBytes := by
  have hsize := ip.size_le
  have hn := n.toNat_lt
  unfold readi uadd at h
  unfold maxBytes at hsize ⊢
  split at h
  · cases h
  · split at h <;> cases h <;> omega

theorem chunkLen_lt (w : Write) (i : ℕ) : chunkLen w i < 4294967296 :=
  Nat.lt_of_le_of_lt (Nat.min_le_right _ _) (by decide)

theorem writei_eq_some {ip ip' : Inode} {off n r : ℕ} {src : ℕ → UInt8} (hn : n < 4294967296)
    (h : writei ip off n src = some (r, ip')) :
    r = n ∧ (0 < n → off + n ≤ maxBytes) ∧ ip'.data = overwrite ip.data off n src := by
  have hsize := ip.size_le
  unfold writei uadd at h
  unfold maxBytes at hsize h ⊢
  split at h
  · cases h
  · split at h
    · cases h
    · cases h
      exact ⟨rfl, fun _ => by omega, rfl⟩

/-- A transfer at `f->off` goes to the end of the chunks. -/
theorem Inv.record (h : Inv off₀ s) (hpending : s.pending = 0) (kind : Kind) (r : Option ℕ) :
    Contiguous off₀ (s.record kind r).chunks (s.off + r.getD 0) := by
  have hchunks := h.chunks
  rw [hpending, Nat.add_zero] at hchunks
  simp only [State.record]
  split
  · exact contiguous_append hchunks kind _
  · rename_i hr
    rw [List.append_nil, Nat.eq_zero_of_not_pos hr]
    exact hchunks

/-- **What a chunk has written stays**: a transfer at `f->off` is behind all earlier ones. -/
theorem Inv.kept_write (h : Inv off₀ s) (hpending : s.pending = 0) (src : ℕ → UInt8) (n : ℕ) :
    ∀ c ∈ (s.record (.write src) (some n)).chunks, ∀ src', c.kind = .write src' → ∀ k < c.len,
      overwrite s.ip.data s.off n src (c.off + k) = src' k := by
  intro c hc src' hkind k hk
  have hchunks := h.chunks
  rw [hpending, Nat.add_zero] at hchunks
  simp only [State.record] at hc
  rcases List.mem_append.mp hc with hc | hc
  · have hbound := hchunks.bounds.2 c hc
    simp only [overwrite]
    rw [if_neg (by omega)]
    exact h.kept c hc src' hkind k hk
  · split at hc
    · obtain rfl := List.mem_singleton.mp hc
      cases hkind
      simp only [Option.getD_some] at hk
      simp only [overwrite]
      rw [if_pos (by omega), Nat.add_sub_cancel_left]
    · cases hc

/-- A read leaves the data as it is. -/
theorem Inv.kept_read (h : Inv off₀ s) (r : Option ℕ) {kind : Kind}
    (hkind : kind = .read ∨ r = none) :
    ∀ c ∈ (s.record kind r).chunks, ∀ src, c.kind = .write src → ∀ k < c.len,
      s.ip.data (c.off + k) = src k := by
  intro c hc src hsrc
  simp only [State.record] at hc
  rcases List.mem_append.mp hc with hc | hc
  · exact h.kept c hc src hsrc
  · split at hc
    · rename_i hr
      obtain rfl := List.mem_singleton.mp hc
      rcases hkind with rfl | rfl
      · cases hsrc
      · exact absurd hr (Nat.lt_irrefl 0)
    · cases hc

/-- `f->off` is moved to the end of the chunk. -/
theorem move_off (s : State P) {r : Option ℕ} (h : 0 < r.getD 0 → s.off + r.getD 0 ≤ maxBytes) :
    (s.move r).off = s.off + r.getD 0 := by
  simp only [State.move]
  split
  · rename_i hr
    have hle := h hr
    simp only [uadd]
    unfold maxBytes at hle
    omega
  · omega

/-! ## Steps -/

variable [DecidableEq P]

/-- A step outside the lock. -/
theorem Inv.outside (h : Inv off₀ s) (hp : (s.pc p).holds = false) {c : Pc}
    (hc : c.holds = false) (hfull : c.Full) : Inv off₀ (s.setPc p c) := by
  have hlock : s.lock ≠ some p := fun hl => by
    rw [(h.holder p).mpr hl] at hp
    cases hp
  have hpending : (s.setPc p c).pending = s.pending := by
    simp only [State.pending, State.setPc]
    cases hl : s.lock with
    | none => rfl
    | some q =>
      have hqp : q ≠ p := by
        rintro rfl
        exact hlock hl
      simp only [update_of_ne hqp]
  refine ⟨fun q => ?_, ?_, ?_, h.kept, fun q => ?_, h.calm⟩
  · by_cases hqp : q = p
    · subst hqp
      simp only [State.setPc, update_self, hc]
      exact iff_of_false Bool.false_ne_true hlock
    · simp only [State.setPc, update_of_ne hqp]
      exact h.holder q
  · rw [hpending]
    exact h.chunks
  · rw [hpending]
    exact h.fits
  · by_cases hqp : q = p
    · subst hqp
      simp only [State.setPc, update_self]
      exact hfull
    · simp only [State.setPc, update_of_ne hqp]
      exact h.full q

/-- A step of the process that takes the lock, or has it. -/
theorem Inv.holding (h : Inv off₀ s) (hfree : s.lock = none ∨ s.lock = some p) {c : Pc}
    (hlock : s'.lock = some p) (hpc : s'.pc = update s.pc p c) (hc : c.holds = true)
    (hfull : c.Full) (hcalm : s'.panicked = false)
    (hchunks : Contiguous off₀ s'.chunks (s'.off + c.moved))
    (hfits : 0 < c.moved → s'.off + c.moved ≤ maxBytes)
    (hkept : ∀ d ∈ s'.chunks, ∀ src, d.kind = .write src → ∀ k < d.len,
      s'.ip.data (d.off + k) = src k) : Inv off₀ s' := by
  have hpending : s'.pending = c.moved := by
    simp only [State.pending, hlock, hpc, update_self]
  refine ⟨fun q => ?_, hpending ▸ hchunks, hpending ▸ hfits, hkept, fun q => ?_, hcalm⟩
  · rw [hpc, hlock]
    by_cases hqp : q = p
    · subst hqp
      simp [hc]
    · rw [update_of_ne hqp, h.holder q]
      rcases hfree with hfree | hfree <;> simp [hfree, Ne.symm hqp]
  · rw [hpc]
    by_cases hqp : q = p
    · subst hqp
      rw [update_self]
      exact hfull
    · rw [update_of_ne hqp]
      exact h.full q

/-- The lock is released. -/
theorem Inv.release (h : Inv off₀ s) (hp : (s.pc p).holds = true) (hmoved : (s.pc p).moved = 0)
    {c : Pc} (hc : c.holds = false) (hfull : c.Full) :
    Inv off₀ ({ s with lock := none }.setPc p c) := by
  have hlock := (h.holder p).mp hp
  have hpending : s.pending = 0 := by simp only [State.pending, hlock, hmoved]
  refine ⟨fun q => ?_, ?_, ?_, h.kept, fun q => ?_, h.calm⟩
  · simp only [State.setPc]
    by_cases hqp : q = p
    · subst hqp
      simp [hc]
    · rw [update_of_ne hqp, h.holder q, hlock]
      simp [Ne.symm hqp]
  · have hchunks := h.chunks
    rw [hpending] at hchunks
    exact hchunks
  · intro hpos
    exact absurd hpos (Nat.lt_irrefl 0)
  · simp only [State.setPc]
    by_cases hqp : q = p
    · subst hqp
      rw [update_self]
      exact hfull
    · rw [update_of_ne hqp]
      exact h.full q

/-- The store to `f->off` of the process that holds the lock. -/
theorem Inv.move (h : Inv off₀ s) {r : Option ℕ} {c : Pc} (hp : (s.pc p).holds = true)
    (hr : (s.pc p).moved = r.getD 0) (hc : c.holds = true) (hmoved : c.moved = 0)
    (hfull : c.Full) : Inv off₀ ((s.move r).setPc p c) := by
  obtain ⟨hlock, hpending⟩ := pending_of_holder h hp
  rw [hr] at hpending
  have hfits := h.fits
  rw [hpending] at hfits
  have hoff := move_off s hfits
  have hrest : (s.move r).pc = s.pc ∧ (s.move r).lock = s.lock ∧ (s.move r).ip = s.ip ∧
      (s.move r).panicked = s.panicked ∧ (s.move r).chunks = s.chunks := by
    simp only [State.move]
    split <;> exact ⟨rfl, rfl, rfl, rfl, rfl⟩
  obtain ⟨hpc, hl, hip, hcalm, hchunks⟩ := hrest
  refine h.holding (p := p) (.inr hlock) (hl.trans hlock) (by simp only [State.setPc, hpc]) hc hfull
    (hcalm.trans h.calm) ?_ ?_ ?_
  · have hcs := h.chunks
    rw [hpending] at hcs
    simp only [State.setPc, hchunks, hoff, hmoved]
    exact hcs
  · rw [hmoved]
    exact fun hpos => absurd hpos (Nat.lt_irrefl 0)
  · simp only [State.setPc, hchunks, hip]
    exact h.kept

theorem Inv.go (h : Inv off₀ s) (hgo : go s p = some s') : Inv off₀ s' := by
  unfold Offset.go at hgo
  split at hgo
  · cases hgo
  · -- `ilock` of `fileread`
    rename_i n hp
    split at hgo
    · rename_i hlock
      cases hgo
      have hchunks := h.chunks
      simp only [State.pending, hlock] at hchunks
      exact h.holding (.inl hlock) rfl rfl rfl trivial h.calm hchunks
        (fun hpos => absurd hpos (Nat.lt_irrefl 0)) h.kept
    · cases hgo
  · rename_i n hp
    cases hgo
    obtain ⟨hlock, hpending⟩ := pending_of_holder h (p := p) (by rw [hp]; rfl)
    rw [hp] at hpending
    refine h.holding (.inr hlock) hlock rfl rfl trivial h.calm (h.record hpending _ _)
      (fun hpos => ?_) (h.kept_read _ (.inl rfl))
    cases hr : Offset.readi s.ip s.off n with
    | none =>
      rw [hr] at hpos
      exact absurd hpos (Nat.lt_irrefl 0)
    | some r =>
      rw [hr] at hpos
      exact readi_bound hr hpos
  · rename_i r hp
    cases hgo
    exact h.move (by rw [hp]; rfl) (by rw [hp]; rfl) rfl rfl trivial
  · rename_i r hp
    cases hgo
    exact h.release (by rw [hp]; rfl) (by rw [hp]; rfl) rfl trivial
  · -- the loop of `filewrite`
    rename_i w i hp
    split at hgo
    · split at hgo
      · rename_i hlock
        cases hgo
        have hchunks := h.chunks
        simp only [State.pending, hlock] at hchunks
        exact h.holding (.inl hlock) rfl rfl rfl trivial h.calm hchunks
          (fun hpos => absurd hpos (Nat.lt_irrefl 0)) h.kept
      · cases hgo
    · cases hgo
      exact h.outside (by rw [hp]; rfl) rfl trivial
  · rename_i w i hp
    obtain ⟨hlock, hpending⟩ := pending_of_holder h (p := p) (by rw [hp]; rfl)
    rw [hp] at hpending
    dsimp only at hgo
    split at hgo
    · cases hgo
      exact h.holding (.inr hlock) hlock rfl rfl (.inl rfl) h.calm (h.record hpending _ _)
        (fun hpos => absurd hpos (Nat.lt_irrefl 0)) (h.kept_read _ (.inr rfl))
    · rename_i r ip hw
      cases hgo
      obtain ⟨rfl, hbound, hdata⟩ := writei_eq_some (chunkLen_lt w i) hw
      refine h.holding (.inr hlock) hlock rfl rfl (.inr rfl) h.calm (h.record hpending _ _)
        hbound ?_
      have hkept := h.kept_write hpending (fun k => w.addr (i + k)) (chunkLen w i)
      rw [← hdata] at hkept
      exact hkept
  · rename_i w i n1 r hp
    cases hgo
    have hfull := h.full p
    rw [hp] at hfull
    exact h.move (by rw [hp]; rfl) (by rw [hp]; rfl) rfl rfl hfull
  · rename_i w i n1 r hp
    have hfull := h.full p
    rw [hp] at hfull
    have hout := fun c hc hfull => h.release (p := p) (c := c) (by rw [hp]; rfl) (by rw [hp]; rfl)
      hc hfull
    rcases hfull with rfl | rfl
    · cases hgo
      exact hout _ rfl trivial
    · simp only [ne_eq, not_true_eq_false, if_false] at hgo
      cases hgo
      exact hout _ rfl trivial

/-- **Every step keeps the invariant.** -/
theorem inv_step {a : Action P} (h : Inv off₀ s) (hst : step s a = some s') : Inv off₀ s' := by
  unfold step at hst
  rw [if_neg (by simp [h.calm])] at hst
  cases a with
  | call p c =>
    dsimp only at hst
    split at hst
    · rename_i ret hp
      cases hst
      cases c with
      | fileread n =>
        simp only [call]
        split
        · exact h.outside (by rw [hp]; rfl) rfl trivial
        · exact h.outside (by rw [hp]; rfl) rfl trivial
      | filewrite w =>
        simp only [call]
        split
        · exact h.outside (by rw [hp]; rfl) rfl trivial
        · exact h.outside (by rw [hp]; rfl) rfl trivial
    · cases hst
  | go p => exact h.go hst

/-- The offset of a shared file is right. -/
structure Right (off₀ : ℕ) (s : State P) : Prop where
  /-- Each chunk starts where the one before it ended, and the last one ended at `f->off`
  or will have when its process has stored to it. -/
  contiguous : Contiguous off₀ s.chunks (s.off + s.pending)
  disjoint : s.chunks.Pairwise fun c d => c.off + c.len ≤ d.off
  /-- `f->off` is the first offset and all that has been moved. -/
  off : s.off + s.pending = off₀ + total s.chunks
  /-- Only a process that holds the inode's lock has moved bytes and not stored to `f->off`. -/
  pending : s.lock = none → s.pending = 0
  /-- What a chunk wrote is in the file. -/
  kept : ∀ c ∈ s.chunks, ∀ src, c.kind = .write src → ∀ k < c.len, s.ip.data (c.off + k) = src k
  /-- No write is cut short. -/
  calm : s.panicked = false

/-- **A shared offset loses no bytes.**  Whatever processes read and write through one file,
and however they interleave, their chunks are contiguous and none overwrites another. -/
theorem offset_shared {readable writable : Bool} {ip : Inode} {acts : List (Action P)}
    (hrun : exec step (start readable writable off₀ ip) acts = some s) : Right off₀ s := by
  have h := exec_invariant (fun s a s' hs _ hst => inv_step hs hst)
    (inv_start readable writable off₀ ip) along_true hrun
  refine ⟨h.chunks, h.chunks.pairwise, h.chunks.total_eq, fun hlock => ?_, h.kept, h.calm⟩
  simp only [State.pending, hlock]

/-- An empty file. -/
def emptyFile : Inode := ⟨0, fun _ => 0, Nat.zero_le _⟩

/-- Two processes write three bytes each, and the second waits for the lock of the first. -/
def twoWrites : List (Action Bool) :=
  [.call false (.filewrite ⟨3, fun _ => 97⟩), .call true (.filewrite ⟨3, fun _ => 98⟩), .go false,
    .go false, .go false, .go false, .go true, .go true, .go true, .go true]

theorem offset_shared_twoWrites : ∃ s, exec step (start true true 0 emptyFile) twoWrites = some s ∧
    s.off = 6 ∧ s.ip.data 2 = 97 ∧ s.ip.data 3 = 98 ∧ Right 0 s := by
  have hrun : ∃ s, exec step (start true true 0 emptyFile) twoWrites = some s ∧
      s.off = 6 ∧ s.ip.data 2 = 97 ∧ s.ip.data 3 = 98 := ⟨_, rfl, rfl, rfl, rfl⟩
  obtain ⟨s, hrun, hoff, h2, h3⟩ := hrun
  exact ⟨s, hrun, hoff, h2, h3, offset_shared hrun⟩

end Xv6.Fs.Offset
