import Xv6.Log.Ops
import Mathlib.Algebra.BigOperators.Group.Finset.Basic
import Mathlib.Algebra.Order.BigOperators.Group.Finset
import Mathlib.Algebra.Group.Action.Defs

/-!
# Admission of operations to the log

`begin_op` admits an operation when `log.lh.n + (log.outstanding+1)*MAXOPBLOCKS`
is at most `LOGSIZE`.  With operations of at most `MAXOPBLOCKS` distinct blocks this
keeps `log.lh.n` within `LOGSIZE`, but the area `mkfs` lays out has `LOGSIZE` blocks
with the header among them, and `log_write` panics at `log.size - 1`, before it
looks whether the block is absorbed.

## Main definitions

* `WithinOp s a` — no call takes its operation past `MAXOPBLOCKS` distinct blocks.
* `Fits A s` — no panic for room, and the logged blocks fit after the header block.
* `Room A s a` — how many distinct blocks the open transaction may have logged
  when `log_write` is called.
* `Admitted N s` — logged blocks and what the outstanding operations may still log
  add up to at most `N`.

## Main results

* `log_admission` — which runs stay within the area.
* `log_admission_panics` — three operations of ten blocks each do not.
-/

namespace Xv6.Log

open Function Machine

/-- The distinct blocks an operation has logged. -/
def opBlocks (s : State) (o : OpId) : Finset BlockNo :=
  ((updatesOf o s.hist.issued).map Upd.blockno).toFinset

/-- The distinct blocks the open transaction's operations have logged. -/
def txnBlocks (s : State) : Finset BlockNo := (s.hist.txn.map Upd.blockno).toFinset

/-- The operation and the block of a call to `log_write`. -/
def calling (s : State) : Action → Option (OpId × BlockNo)
  | .logWrite p b => (s.procs p).op?.map fun o => (o, b)
  | _ => none

/-- No call to `log_write` takes its operation past `MAXOPBLOCKS` distinct blocks. -/
def WithinOp (s : State) (a : Action) : Prop :=
  ∀ c ∈ calling s a, (insert c.2 (opBlocks s c.1)).card ≤ MAXOPBLOCKS

instance (s : State) (a : Action) : Decidable (WithinOp s a) :=
  inferInstanceAs (Decidable (∀ c ∈ calling s a, _))

/-- `log_write` has not run out of room, and the logged blocks fit in the area after
its header block. -/
structure Fits (A : Area) (s : State) : Prop where
  no_panic : s.panicked ≠ some .tooBigATransaction
  lh_lt : s.phase.Up → s.lh.length < A.size

/-- The operations of the open transaction have logged few enough distinct blocks:
when `log_write` is called, and when it records the block. -/
def Room (A : Area) (s : State) : Action → Prop
  | .logWrite _ _ => (txnBlocks s).card + 1 < A.size
  | .logRecord p => ∀ b ∈ recording s (.logRecord p), (insert b (txnBlocks s)).card < A.size
  | _ => True

instance (A : Area) (s : State) : ∀ a, Decidable (Room A s a)
  | .logWrite _ _ => inferInstanceAs (Decidable (_ < _))
  | .logRecord p => inferInstanceAs (Decidable (∀ b ∈ recording s (.logRecord p), _))
  | .beginOp _ | .bread _ _ | .modify _ _ _ | .brelse _ _ | .endOp _ | .evict _ | .commit
  | .endCommit | .crash | .recover => .isTrue trivial

/-- `begin_op` admits an operation with `N` blocks to share. -/
def AdmitsWithin (N : ℕ) (s : State) : Action → Prop
  | .beginOp _ => s.lh.length + (s.outstanding + 1) * MAXOPBLOCKS ≤ N
  | _ => True

/-- What an operation may still log. -/
def remaining (s : State) (p : Pid) : ℕ :=
  (s.procs p).op?.elim 0 fun o => MAXOPBLOCKS - (opBlocks s o).card

variable {A : Area} {s s' : State} {a : Action} {N : ℕ}

/-! ## The in-memory header counts the transaction's blocks -/

theorem OpsInv.toFinset_lh (h : OpsInv s) (hrun : s.phase = .running) :
    s.lh.toFinset = txnBlocks s := by
  ext b
  rw [List.mem_toFinset, h.lh_mem hrun, txnBlocks, List.mem_toFinset]

theorem OpsInv.card_txnBlocks (h : OpsInv s) (hrun : s.phase = .running) :
    (txnBlocks s).card = s.lh.length := by
  rw [← h.toFinset_lh hrun, List.toFinset_card_of_nodup (h.lh_nodup (by rw [hrun]; trivial))]

/-- An outstanding operation's blocks are all in the header. -/
theorem HistInv.opBlocks_subset (hh : HistInv s) (h : OpsInv s) (hrun : s.phase = .running)
    {p : Pid} {o : OpId} (ho : (s.procs p).op? = some o) : opBlocks s o ⊆ s.lh.toFinset := by
  intro b hb
  rw [opBlocks, ← hh.txn_whole o (hh.active p o ho), List.mem_toFinset, List.mem_map] at hb
  obtain ⟨u, hu, rfl⟩ := hb
  rw [h.toFinset_lh hrun, txnBlocks, List.mem_toFinset]
  exact List.mem_map_of_mem (List.mem_of_mem_filter hu)

/-- A record adds its block to its own operation. -/
theorem opBlocks_record {u : Upd} {o : OpId} (hi : s'.hist.issued = s.hist.issued ++ [u]) :
    opBlocks s' o = if u.op = o then insert u.blockno (opBlocks s o) else opBlocks s o := by
  rw [opBlocks, hi, updatesOf_concat]
  split
  · rw [List.map_append, List.toFinset_append, Finset.union_comm]
    rfl
  · rw [List.append_nil]
    rfl

/-! ## The accounting invariant -/

/-- The processes inside an operation. -/
def ActiveSet (s : State) (F : Finset Pid) : Prop := ∀ p, p ∈ F ↔ s.procs p ≠ .outside

/-- The accounting invariant of `begin_op`'s reservation. -/
structure Admitted (N : ℕ) (s : State) : Prop where
  ops : OpsInv s
  hist : HistInv s
  within : ∀ p op un b, s.procs p = .logging op un b →
    (insert b (opBlocks s op)).card ≤ MAXOPBLOCKS
  reserved : s.phase = .running → ∀ F, ActiveSet s F →
    s.lh.length + ∑ p ∈ F, remaining s p ≤ N
  bounded : s.phase.Up → s.lh.length ≤ N

theorem remaining_le (s : State) (p : Pid) : remaining s p ≤ MAXOPBLOCKS := by
  unfold remaining
  cases (s.procs p).op? with
  | none => exact Nat.zero_le _
  | some o => exact Nat.sub_le _ _

theorem remaining_congr {p : Pid} (hop : (s'.procs p).op? = (s.procs p).op?)
    (hi : ∀ o, (s.procs p).op? = some o → opBlocks s' o = opBlocks s o) :
    remaining s' p = remaining s p := by
  unfold remaining
  rw [hop]
  cases ho : (s.procs p).op? with
  | none => rfl
  | some o => rw [Option.elim_some, Option.elim_some, hi o ho]

namespace Admitted

theorem of_not_running (hops : OpsInv s) (hhist : HistInv s) (hne : s.phase ≠ .running)
    (hb : s.phase.Up → s.lh.length ≤ N) : Admitted N s where
  ops := hops
  hist := hhist
  within p op un b hp := by
    rw [hops.quiet hne p] at hp
    cases hp
  reserved hr := absurd hr hne
  bounded := hb

/-- With an empty header and nobody inside an operation nothing is reserved. -/
theorem of_idle (hops : OpsInv s) (hhist : HistInv s) (hout : ∀ p, s.procs p = .outside)
    (hnil : s.lh = []) : Admitted N s where
  ops := hops
  hist := hhist
  within p op un b hp := by
    rw [hout p] at hp
    cases hp
  reserved _ F hF := by
    have hzero : ∀ p ∈ F, remaining s p = 0 := fun p _ => by simp [remaining, hout p, Proc.op?]
    rw [hnil, Finset.sum_eq_zero hzero]
    exact Nat.zero_le _
  bounded _ := by
    rw [hnil]
    exact Nat.zero_le _

section

variable (h : Admitted N s)
include h

theorem frame (hf : Frame s s')
    (hw : ∀ p op un b, s'.procs p = .logging op un b →
      (insert b (opBlocks s op)).card ≤ MAXOPBLOCKS) :
    Admitted N s' := by
  have hblocks : ∀ o, opBlocks s' o = opBlocks s o := fun o => by rw [opBlocks, hf.hist]; rfl
  exact {
    ops := h.ops.frame hf
    hist := h.hist.frame hf
    within := fun p op un b hp => by
      rw [hblocks]
      exact hw p op un b hp
    reserved := fun hr F hF => by
      have hF' : ActiveSet s F := fun p => (hF p).trans (hf.procs_ne p)
      have hrem : ∀ p ∈ F, remaining s' p = remaining s p :=
        fun p _ => remaining_congr (hf.op p) fun o _ => hblocks o
      rw [hf.lh, Finset.sum_congr rfl hrem]
      exact h.reserved (hf.phase ▸ hr) F hF'
    bounded := fun hup => by
      rw [hf.lh]
      exact h.bounded (hf.phase ▸ hup) }

/-- Steps that leave the processes alone. -/
theorem frame_procs (hf : Frame s s') (hp : s'.procs = s.procs) :
    Admitted N s' :=
  h.frame hf fun p op un b hl => h.within p op un b (hp ▸ hl)

theorem modify {p : Pid} {b : BlockNo} {data : Block} (hs : modify s p b data = some s') :
    Admitted N s' := by
  refine h.frame (modify_frame hs) ?_
  unfold Log.modify at hs
  split at hs
  · replace hs := of_guard hs
    cases hs
    intro q op un x hq
    by_cases hqp : q = p
    · simp [hqp] at hq
    · exact h.within q op un x (by simpa [update_of_ne hqp] using hq)
  all_goals cases hs

theorem logWrite {p : Pid} {b : BlockNo} (hw : WithinOp s (.logWrite p b))
    (hs : logWrite A s p b = some s') : Admitted N s' := by
  refine h.frame (logWrite_frame hs) ?_
  unfold Log.logWrite at hs
  split at hs
  · rename_i op un hpr
    replace hs := of_guard hs
    split at hs
    · cases hs
      exact h.within
    split at hs
    · cases hs
      exact h.within
    cases hs
    intro q op' un' x hq
    by_cases hqp : q = p
    · -- The call being made is the one `WithinOp` speaks of.
      simp only [hqp, update_self, Proc.logging.injEq] at hq
      obtain ⟨rfl, -, rfl⟩ := hq
      exact hw (op, b) (by simp [calling, hpr, Proc.op?])
    · exact h.within q op' un' x (by simpa [update_of_ne hqp] using hq)
  all_goals cases hs

theorem beginOp (hup : s.phase.Up) {p : Pid} (hN : AdmitsWithin N s (.beginOp p))
    (hs : beginOp s p = some s') : Admitted N s' := by
  have hops := h.ops.beginOp hup hs
  have hhist := h.hist.beginOp hs
  obtain ⟨⟨hout, hcom, -⟩, hs⟩ := Option.ite_none_right_eq_some.mp hs
  cases hs
  have hrun := h.ops.running_of_not_committing hup hcom
  exact {
    ops := hops
    hist := hhist
    within := fun q op un b hq => by
      by_cases hqp : q = p
      · simp [hqp] at hq
      · exact h.within q op un b (by simpa [update_of_ne hqp] using hq)
    reserved := fun _ F hF => by
      -- The newcomer and everyone already inside may each use a full reservation.
      obtain ⟨F₀, hF₀, hcard⟩ := h.ops.active
      have hFins : F = insert p F₀ := by
        ext q
        rw [hF q, Finset.mem_insert, hF₀]
        by_cases hqp : q = p
        · simp [hqp]
        · simp [hqp]
      have hsize : F.card = s.outstanding + 1 := by
        rw [hFins, Finset.card_insert_of_notMem (by simp [hF₀, hout]), hcard]
      refine le_trans (Nat.add_le_add_left ?_ _) hN
      calc _ ≤ F.card • MAXOPBLOCKS := Finset.sum_le_card_nsmul F _ _ fun q _ => remaining_le _ q
        _ = (s.outstanding + 1) * MAXOPBLOCKS := by rw [hsize, smul_eq_mul]
    bounded := h.bounded }

/-- A record moves at most one block from the reservation to the header. -/
theorem logRecord {p : Pid} (hs : logRecord s p = some s') :
    Admitted N s' := by
  obtain ⟨op, b, hf⟩ := logRecord_frame hs
  obtain ⟨un, hpr⟩ := hf.before
  obtain ⟨un', hprocs⟩ := hf.procs
  have hop : (s.procs p).op? = some op := by rw [hpr]; rfl
  have hact : s.procs p ≠ .outside := by simp [hpr]
  have hrun := h.ops.running_of_active hact
  have hsame : ∀ q, (s'.procs q).op? = (s.procs q).op? := by
    rw [hprocs]
    exact op?_update hop.symm
  have hself : opBlocks s' op = insert b (opBlocks s op) := by
    rw [opBlocks_record hf.issued, if_pos rfl]
  have hother : ∀ q o, q ≠ p → (s.procs q).op? = some o → opBlocks s' o = opBlocks s o := by
    intro q o hq ho
    rw [opBlocks_record hf.issued, if_neg]
    rintro rfl
    exact hq (h.hist.active_inj q p _ ho hop)
  have hreserved : ∀ F, ActiveSet s' F → s'.lh.length + ∑ q ∈ F, remaining s' q ≤ N := by
    intro F hF
    have hF' : ActiveSet s F := fun q => by
      rw [hF q, ← not_iff_not, not_not, not_not, ← Proc.op?_eq_none, ← Proc.op?_eq_none, hsame q]
    have hpF := (hF' p).mpr hact
    have hold := h.reserved hrun F hF'
    have hrest : ∑ q ∈ F.erase p, remaining s' q = ∑ q ∈ F.erase p, remaining s q :=
      Finset.sum_congr rfl fun q hq =>
        remaining_congr (hsame q) fun o ho => hother q o (Finset.ne_of_mem_erase hq) ho
    rw [← Finset.add_sum_erase F _ hpF] at hold ⊢
    rw [hrest]
    have hp : remaining s p = MAXOPBLOCKS - (opBlocks s op).card := by
      rw [remaining, hop, Option.elim_some]
    have hp' : remaining s' p = MAXOPBLOCKS - (insert b (opBlocks s op)).card := by
      rw [remaining, hsame, hop, Option.elim_some, hself]
    rw [hp] at hold
    rw [hp', hf.lh]
    split
    · have := Finset.card_le_card (Finset.subset_insert b (opBlocks s op))
      omega
    · -- A block new to the header is new to the operation, which had room for it.
      rename_i hb
      have hnb : b ∉ opBlocks s op := fun hm =>
        hb (List.mem_toFinset.mp (h.hist.opBlocks_subset h.ops hrun hop hm))
      have hwith := h.within p op un b hpr
      rw [Finset.card_insert_of_notMem hnb] at hwith ⊢
      rw [List.length_append, List.length_singleton]
      omega
  exact {
    ops := h.ops.logRecord hs
    hist := h.hist.logRecord hs
    within := fun q o un₁ x hq => by
      rw [hprocs] at hq
      by_cases hqp : q = p
      · simp [hqp] at hq
      · rw [update_of_ne hqp] at hq
        rw [hother q o hqp (by rw [hq]; rfl)]
        exact h.within q o un₁ x hq
    reserved := fun _ => hreserved
    bounded := fun _ => by
      obtain ⟨F, hF, -⟩ := (h.ops.logRecord hs).active
      exact le_trans (Nat.le_add_right _ _) (hreserved F hF) }

theorem endOp {p : Pid} (hs : endOp s p = some s') : Admitted N s' := by
  have hops := h.ops.endOp hs
  have hhist := h.hist.endOp h.ops hs
  unfold Log.endOp at hs
  split at hs
  case h_2 => cases hs
  rename_i op hpr
  have hact : s.procs p ≠ .outside := by simp [hpr]
  have hrun := h.ops.running_of_active hact
  have hle := h.bounded (by rw [hrun]; trivial)
  simp only [h.ops.not_committing hrun, Bool.false_eq_true, if_false] at hs
  split at hs
  · split at hs <;> obtain rfl := Option.some.inj hs <;>
      exact of_not_running hops hhist (by simp) fun _ => hle
  · have hs' := Option.some.inj hs
    have hprocs : s'.procs = update s.procs p .outside := by rw [← hs']
    have hblocks : ∀ o, opBlocks s' o = opBlocks s o := fun o => by rw [← hs']; rfl
    have hlh : s'.lh = s.lh := by rw [← hs']
    exact {
      ops := hops
      hist := hhist
      within := fun q o un b hq => by
        rw [hprocs] at hq
        by_cases hqp : q = p
        · simp [hqp] at hq
        · rw [update_of_ne hqp] at hq
          rw [hblocks]
          exact h.within q o un b hq
      reserved := fun _ F hF => by
        -- What the finished operation did not use is given back.
        have hpF : p ∉ F := by simp [hF p, hprocs]
        have hF' : ActiveSet s (insert p F) := by
          intro q
          by_cases hqp : q = p
          · simp [hqp, hact]
          · simp [hqp, hF q, hprocs]
        have hold := h.reserved hrun _ hF'
        rw [Finset.sum_insert hpF] at hold
        have hsum : ∑ q ∈ F, remaining s' q = ∑ q ∈ F, remaining s q :=
          Finset.sum_congr rfl fun q hq => remaining_congr
            (by rw [hprocs, update_of_ne (ne_of_mem_of_not_mem hq hpF)])
            fun o _ => hblocks o
        rw [hlh, hsum]
        omega
      bounded := fun _ => by
        rw [hlh]
        exact hle }

/-- Every step keeps the accounting, as long as operations stay within their
reservation and `begin_op` reserves within `N`. -/
theorem step (hw : WithinOp s a) (hN : AdmitsWithin N s a) (hs : step A s a = some s') :
    Admitted N s' := by
  have hops := h.ops.step hs
  have hhist := h.hist.step h.ops hs
  cases a with
  | crash =>
    cases hs
    exact of_not_running hops hhist (by simp [Log.crash]) False.elim
  | beginOp p =>
    obtain ⟨hl, hs⟩ := Option.ite_none_right_eq_some.mp hs
    exact h.beginOp (State.up_of_live hl) hN hs
  | bread p b =>
    replace hs := of_guard hs
    refine h.frame_procs (bread_frame hs) ?_
    replace hs := of_guard hs
    cases hs
    rfl
  | modify p b data => exact h.modify (of_guard hs)
  | logWrite p b => exact h.logWrite hw (of_guard hs)
  | logRecord p => exact h.logRecord (of_guard hs)
  | brelse p b =>
    replace hs := of_guard hs
    refine h.frame_procs (brelse_frame hs) ?_
    replace hs := of_guard hs
    cases hs
    rfl
  | endOp p => exact h.endOp (of_guard hs)
  | evict b =>
    replace hs := of_guard hs
    refine h.frame_procs (evict_frame hs) ?_
    unfold Log.evict at hs
    split at hs
    · replace hs := of_guard hs
      cases hs
      rfl
    · cases hs
  | commit =>
    have hf := commit_frame (of_guard hs)
    obtain ⟨pc, hpc⟩ := hf.before
    obtain ⟨pc', hpc'⟩ := hf.after
    refine of_not_running hops hhist (by simp [hpc']) fun _ => ?_
    rcases hf.lh with ⟨hl, -⟩ | hl <;> rw [hl]
    · exact h.bounded (by rw [hpc]; trivial)
    · exact Nat.zero_le _
  | endCommit =>
    obtain ⟨hph, hs⟩ := Option.ite_none_right_eq_some.mp (of_guard hs)
    cases hs
    exact of_idle hops hhist (h.ops.quiet (by simp [hph]))
      (h.ops.lh_cleared (by rw [hph]; trivial))
  | recover =>
    have hf := recover_frame (of_guard hs)
    obtain ⟨pc, hpc⟩ := hf.before
    have hquiet := h.ops.quiet (by simp [hpc])
    rcases hf.after with ⟨pc', hpc'⟩ | ⟨hc, -, hl⟩
    · exact of_not_running hops hhist (by simp [hpc']) (by simp [hpc', Phase.Up])
    · exact of_idle hops hhist (by rw [hf.procs]; exact hquiet)
        (by rw [hl]; exact h.ops.lh_cleared hc)

end

theorem boot (d : BlockNo → Block) : Admitted N (boot d) :=
  of_not_running (OpsInv.boot d) (HistInv.boot d) (by simp [Log.boot]) False.elim

/-- The open transaction's distinct blocks are counted by the header. -/
theorem card_txnBlocks_le (h : Admitted N s) (hrun : s.phase = .running) :
    (txnBlocks s).card ≤ N := by
  rw [h.ops.card_txnBlocks hrun]
  exact h.bounded (by rw [hrun]; trivial)

/-- Reservations within an area that is two blocks larger leave room for every call:
one block for the header and one because `log_write` does not look for absorption. -/
theorem room (h : Admitted N s) (hA : N + 2 ≤ A.size) (hs : Log.step A s a = some s') :
    Room A s a := by
  cases a with
  | logWrite p b =>
    have hs := of_guard hs
    unfold Log.logWrite at hs
    split at hs
    · rename_i op un hpr
      have := h.card_txnBlocks_le (h.ops.running_of_active (p := p) (by simp [hpr]))
      show (txnBlocks s).card + 1 < A.size
      omega
    all_goals cases hs
  | logRecord p =>
    obtain ⟨op, x, hf⟩ := logRecord_frame (of_guard hs)
    obtain ⟨un, hpr⟩ := hf.before
    have := h.card_txnBlocks_le (h.ops.running_of_active (p := p) (by simp [hpr]))
    intro b _
    have := Finset.card_insert_le b (txnBlocks s)
    omega
  | _ => trivial

end Admitted

/-! ## Which runs fit -/

theorem Fits.of_same (h : Fits A s) (hp : s'.panicked = s.panicked)
    (hl : s'.phase.Up → s.phase.Up ∧ s'.lh = s.lh ∨ s'.lh = []) : Fits A s' where
  no_panic := by rw [hp]; exact h.no_panic
  lh_lt hup := by
    rcases hl hup with ⟨hup', hl⟩ | hl <;> rw [hl]
    · exact h.lh_lt hup'
    · exact A.size_pos

theorem Fits.frame (h : Fits A s) (hf : Frame s s') (hp : s'.panicked = s.panicked) :
    Fits A s' :=
  h.of_same hp fun hup => .inl ⟨hf.phase ▸ hup, hf.lh⟩

/-- Only `log_write` can make the log overflow. -/
theorem Fits.step (h : Fits A s) (hops : OpsInv s) (hw : ∀ p b, a ≠ .logWrite p b)
    (hr : ∀ p, a ≠ .logRecord p) (hs : step A s a = some s') : Fits A s' := by
  cases a with
  | crash =>
    cases hs
    exact ⟨by simp [crash], False.elim⟩
  | beginOp p =>
    replace hs := of_guard (of_guard hs)
    cases hs
    exact h.of_same rfl fun hup => .inl ⟨hup, rfl⟩
  | bread p b =>
    replace hs := of_guard (of_guard hs)
    cases hs
    exact h.of_same rfl fun hup => .inl ⟨hup, rfl⟩
  | modify p b data =>
    have hs := of_guard hs
    refine h.frame (modify_frame hs) ?_
    unfold modify at hs
    split at hs
    · replace hs := of_guard hs
      cases hs
      rfl
    all_goals cases hs
  | logWrite p b => exact absurd rfl (hw p b)
  | logRecord p => exact absurd rfl (hr p)
  | brelse p b =>
    replace hs := of_guard (of_guard hs)
    cases hs
    exact h.of_same rfl fun hup => .inl ⟨hup, rfl⟩
  | endOp p =>
    have hs := of_guard hs
    unfold endOp at hs
    split at hs
    case h_2 => cases hs
    rename_i op hpr
    have hrun := hops.running_of_active (p := p) (by simp [hpr])
    have hlt := h.lh_lt (by rw [hrun]; trivial)
    simp only [hops.not_committing hrun, Bool.false_eq_true, if_false] at hs
    split at hs
    · split at hs <;> obtain rfl := Option.some.inj hs <;> exact ⟨h.no_panic, fun _ => hlt⟩
    · cases hs
      exact ⟨h.no_panic, fun _ => hlt⟩
  | evict b =>
    have hs := of_guard hs
    refine h.frame (evict_frame hs) ?_
    unfold evict at hs
    split at hs
    · replace hs := of_guard hs
      cases hs
      rfl
    · cases hs
  | commit =>
    have hf := commit_frame (of_guard hs)
    obtain ⟨pc, hpc⟩ := hf.before
    exact h.of_same hf.panicked fun _ =>
      hf.lh.imp (fun hl => ⟨by rw [hpc]; trivial, hl.1⟩) id
  | endCommit =>
    obtain ⟨hph, hs⟩ := Option.ite_none_right_eq_some.mp (of_guard hs)
    cases hs
    exact h.of_same rfl fun _ => .inl ⟨by rw [hph]; trivial, rfl⟩
  | recover =>
    have hf := recover_frame (of_guard hs)
    refine h.of_same hf.panicked fun hup => .inr ?_
    rcases hf.after with ⟨pc, hpc⟩ | ⟨hc, -, hl⟩
    · exact absurd (hpc ▸ hup) (by simp [Phase.Up])
    · rw [hl]
      exact hops.lh_cleared hc

/-- **One step.**  From a state that fits, the next one fits exactly when the
transaction had logged few enough distinct blocks. -/
theorem fits_step_iff (hA : A.size ≤ LOGSIZE) (hops : OpsInv s) (h : Fits A s)
    (hs : step A s a = some s') : Fits A s' ↔ Room A s a := by
  have hother : (∀ p b, a ≠ .logWrite p b) → (∀ p, a ≠ .logRecord p) → Fits A s' :=
    fun hw hr => h.step hops hw hr hs
  cases a with
  | logWrite p b =>
    have hs := of_guard hs
    unfold logWrite at hs
    split at hs
    · rename_i op un hpr
      replace hs := of_guard hs
      have hcard := hops.card_txnBlocks (hops.running_of_active (p := p) (by simp [hpr]))
      rw [show Room A s (.logWrite p b) ↔ s.lh.length + 1 < A.size by rw [Room, hcard]]
      split at hs
      · rename_i hfull
        cases hs
        exact iff_of_false (fun hf => hf.no_panic rfl) (by omega)
      · rename_i hroom
        refine iff_of_true ?_ (by omega)
        split at hs <;> cases hs
        · exact ⟨by simp, h.lh_lt⟩
        · exact ⟨h.no_panic, h.lh_lt⟩
    all_goals cases hs
  | logRecord p =>
    obtain ⟨op, b, hf⟩ := logRecord_frame (of_guard hs)
    obtain ⟨un, hpr⟩ := hf.before
    have hrun := hops.running_of_active (p := p) (by simp [hpr])
    have hlen : s'.lh.length = (insert b (txnBlocks s)).card := by
      rw [hf.lh, ← hops.toFinset_lh hrun]
      split
      · rename_i hb
        rw [Finset.insert_eq_of_mem (List.mem_toFinset.mpr hb), hops.toFinset_lh hrun,
          hops.card_txnBlocks hrun]
      · rename_i hb
        rw [Finset.card_insert_of_notMem (by simpa using hb), hops.toFinset_lh hrun,
          hops.card_txnBlocks hrun, List.length_append, List.length_singleton]
    have hroom : Room A s (.logRecord p) ↔ s'.lh.length < A.size := by
      rw [hlen, Room]
      simp [recording, hpr]
    rw [hroom]
    exact ⟨fun hf' => hf'.lh_lt (by rw [hf.phase, hrun]; trivial),
      fun hlt => ⟨by rw [hf.panicked]; exact h.no_panic, fun _ => hlt⟩⟩
  | _ => exact iff_of_true (hother (by simp) (by simp)) trivial

/-- Every `begin_op` of the source reserves within `LOGSIZE`. -/
theorem admitsWithin_LOGSIZE (hs : step A s a = some s') : AdmitsWithin LOGSIZE s a := by
  cases a with
  | beginOp p =>
    obtain ⟨⟨-, -, hle⟩, -⟩ :=
      Option.ite_none_right_eq_some.mp (of_guard hs)
    exact hle
  | _ => trivial

/-- **Admission control.**  Take any run on the area `mkfs` lays out in which every
operation calls `log_write` for at most `MAXOPBLOCKS` distinct blocks.  The header
array never overflows.  No call panics and all blocks fit after the header block
exactly when every call and every record finds the transaction's distinct blocks
within `log.size - 2` and `log.size - 1`; reserving within `log.size - 2` at every
`begin_op` is enough for that. -/
theorem log_admission (d : BlockNo → Block) {xs : List Action} {s : State}
    (hops : Along (step mkfsArea) WithinOp (boot d) xs)
    (hrun : exec (step mkfsArea) (boot d) xs = some s) :
    Throughout (step mkfsArea) (fun t => t.phase.Up → t.lh.length ≤ LOGSIZE) (boot d) xs ∧
    (Throughout (step mkfsArea) (Fits mkfsArea) (boot d) xs ↔
      Along (step mkfsArea) (Room mkfsArea) (boot d) xs) ∧
    (Along (step mkfsArea) (AdmitsWithin (mkfsArea.size - 2)) (boot d) xs →
      Throughout (step mkfsArea) (Fits mkfsArea) (boot d) xs) := by
  have hfits : Fits mkfsArea (boot d) := ⟨by simp [boot], False.elim⟩
  refine ⟨?_, ?_, fun hadm => ?_⟩
  · refine Throughout.mono (fun t h => h.bounded) (throughout_invariant (I := Admitted LOGSIZE)
      (P := WithinOp) (fun t a t' h hw hst => ?_) (Admitted.boot d) hops)
    exact h.step hw (admitsWithin_LOGSIZE hst) hst
  · exact throughout_iff_along (I := OpsInv) (P := WithinOp) (fun t a t' h _ hst => h.step hst)
      (fun t a t' h _ hf hst => fits_step_iff le_rfl h hf hst) (OpsInv.boot d) hfits hops hrun
  · refine Throughout.mono (fun t h => h.2) (throughout_invariant
      (I := fun t => Admitted (mkfsArea.size - 2) t ∧ Fits mkfsArea t)
      (fun t a t' h hP hst => ⟨h.1.step hP.1 hP.2 hst, ?_⟩) ⟨Admitted.boot d, hfits⟩
      (hops.and hadm))
    exact (fits_step_iff le_rfl h.1.ops h.2 hst).mpr (h.1.room (by decide) hst)

/-- Recovery on a fresh disk, and three operations admitted together. -/
def threeOps : List Action :=
  [.recover, .recover, .recover, .beginOp 0, .beginOp 1, .beginOp 2]

/-- Process `p` logs block `b`. -/
def logBlock (p : Pid) (b : BlockNo) : List Action :=
  [.bread p b, .logWrite p b, .logRecord p, .brelse p b]

/-- `n` blocks, logged by the three operations in turn. -/
def logBlocks (n : ℕ) : List Action :=
  (List.range n).flatMap fun i => logBlock (i % 3) (100 + i)

theorem log_admission_threeOps :
    Throughout (step mkfsArea) (Fits mkfsArea) (boot fun _ _ => 0) (threeOps ++ logBlocks 12) :=
  (log_admission (fun _ _ => 0) (by decide +kernel) rfl).2.1.mpr (by decide +kernel)

/-- The thirtieth block of three operations of ten. -/
def thirtieth : List Action := threeOps ++ logBlocks 29 ++ [.bread 2 129, .logWrite 2 129]

/-- The twenty-ninth and the thirtieth, both tested before either is recorded. -/
def bothTested : List Action :=
  threeOps ++ logBlocks 28 ++ [.bread 1 128, .bread 2 129, .logWrite 1 128, .logWrite 2 129,
    .logRecord 1, .logRecord 2]

/-- Three operations of ten blocks each: the thirtieth block is refused, or, when two
calls overlap, recorded in the slot after the area. -/
theorem log_admission_panics :
    Along (step mkfsArea) WithinOp (boot fun _ _ => 0) thirtieth ∧
    (exec (step mkfsArea) (boot fun _ _ => 0) thirtieth).map State.panicked =
      some (some .tooBigATransaction) ∧
    Along (step mkfsArea) WithinOp (boot fun _ _ => 0) bothTested ∧
    (exec (step mkfsArea) (boot fun _ _ => 0) bothTested).map (fun s => s.lh.length) =
      some mkfsArea.size := by
  refine ⟨?_, ?_, ?_, ?_⟩ <;> decide +kernel

end Xv6.Log
