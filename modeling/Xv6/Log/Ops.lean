import Xv6.Log.Model
import Xv6.Lib.Machine

/-!
# Operations, transactions and groups

Everything about the log that does not depend on the disk: `outstanding` counts
the processes inside an operation, the in-memory header lists the blocks of the
open transaction once each, and every update of an operation goes to the one
transaction that was open when the operation began, because `end_op` commits only
when no operation is outstanding.

Steps that leave operations and history alone are collected in `Frame`; the
invariants below are transported along it once.

## Main definitions

* `Frame s s'` — nothing but buffers and the state inside an operation changed.
* `OpsInv` — processes, phase and in-memory header.
* `HistInv` — operations and groups.
-/

namespace Xv6.Log

open Function Machine

/-- The buffers a process has modified and not yet logged. -/
def Proc.unlogged : Proc → List BlockNo
  | .outside => []
  | .inOp _ un => un
  | .logging _ un _ => un

/-- The operation a process is in. -/
def Proc.op? : Proc → Option OpId
  | .outside => none
  | .inOp op _ => some op
  | .logging op _ _ => some op

@[simp] theorem Proc.op?_eq_none {pr : Proc} : pr.op? = none ↔ pr = .outside := by
  cases pr <;> simp [Proc.op?]

/-- The block that a step enters into the in-memory header. -/
def recording (s : State) : Action → Option BlockNo
  | .logRecord p =>
    match s.procs p with
    | .logging _ _ b => some b
    | _ => none
  | _ => none

variable {A : Area} {s s' : State} {a : Action}

/-! ## What a step can change -/

/-- A step between buffers, or inside an operation. -/
structure Frame (s s' : State) : Prop where
  phase : s'.phase = s.phase
  committing : s'.committing = s.committing
  outstanding : s'.outstanding = s.outstanding
  lh : s'.lh = s.lh
  hist : s'.hist = s.hist
  op : ∀ p, (s'.procs p).op? = (s.procs p).op?

theorem Frame.procs_ne (h : Frame s s') (p : Pid) :
    s'.procs p ≠ .outside ↔ s.procs p ≠ .outside := by
  rw [← not_iff_not, not_not, not_not, ← Proc.op?_eq_none, ← Proc.op?_eq_none, h.op p]

/-- A process that changes state without changing its operation. -/
theorem op?_update {p : Pid} {pr : Proc} (hpr : pr.op? = (s.procs p).op?) (q : Pid) :
    (update s.procs p pr q).op? = (s.procs q).op? := by
  by_cases hq : q = p
  · rw [hq, update_self, hpr]
  · rw [update_of_ne hq]

theorem bread_frame {p : Pid} {b : BlockNo} (hs : bread s p b = some s') : Frame s s' := by
  replace hs := of_guard hs
  cases hs
  exact ⟨rfl, rfl, rfl, rfl, rfl, fun _ => rfl⟩

theorem modify_frame {p : Pid} {b : BlockNo} {data : Block} (hs : modify s p b data = some s') :
    Frame s s' := by
  unfold modify at hs
  split at hs
  · rename_i op un hpr
    replace hs := of_guard hs
    cases hs
    exact ⟨rfl, rfl, rfl, rfl, rfl, op?_update (by rw [hpr]; rfl)⟩
  all_goals cases hs

theorem logWrite_frame {p : Pid} {b : BlockNo} (hs : logWrite A s p b = some s') :
    Frame s s' := by
  unfold logWrite at hs
  split at hs
  · rename_i op un hpr
    replace hs := of_guard hs
    split at hs
    · cases hs
      exact ⟨rfl, rfl, rfl, rfl, rfl, fun _ => rfl⟩
    split at hs
    · cases hs
      exact ⟨rfl, rfl, rfl, rfl, rfl, fun _ => rfl⟩
    cases hs
    exact ⟨rfl, rfl, rfl, rfl, rfl, op?_update (by rw [hpr]; rfl)⟩
  all_goals cases hs

theorem brelse_frame {p : Pid} {b : BlockNo} (hs : brelse s p b = some s') : Frame s s' := by
  replace hs := of_guard hs
  cases hs
  exact ⟨rfl, rfl, rfl, rfl, rfl, fun _ => rfl⟩

theorem evict_frame {b : BlockNo} (hs : evict s b = some s') : Frame s s' := by
  unfold evict at hs
  split at hs
  · replace hs := of_guard hs
    cases hs
    exact ⟨rfl, rfl, rfl, rfl, rfl, fun _ => rfl⟩
  · cases hs

/-- The locked section of `log_write` by process `p`, in operation `op`, for block `b`. -/
structure RecordFrame (s s' : State) (p : Pid) (op : OpId) (b : BlockNo) : Prop where
  before : ∃ un, s.procs p = .logging op un b
  procs : ∃ un, s'.procs = update s.procs p (.inOp op un)
  phase : s'.phase = s.phase
  panicked : s'.panicked = s.panicked
  lh : s'.lh = if b ∈ s.lh then s.lh else s.lh ++ [b]
  issued : s'.hist.issued = s.hist.issued ++ [⟨op, b, s.view b⟩]

theorem logRecord_frame {p : Pid} (hs : logRecord s p = some s') :
    ∃ op b, RecordFrame s s' p op b := by
  unfold logRecord at hs
  split at hs
  · rename_i op un b hpr
    cases hs
    exact ⟨op, b, ⟨un, hpr⟩, ⟨_, rfl⟩, rfl, rfl, rfl, rfl⟩
  all_goals cases hs

/-- The points at which the in-memory header has been emptied. -/
def Phase.Cleared : Phase → Prop
  | .commit .clearHead | .commit .done | .recover .clearHead => True
  | _ => False

/-- A step of `commit()`: the header keeps its length or is cleared, and of the
history only the durable count can grow. -/
structure CommitFrame (s s' : State) : Prop where
  before : ∃ pc, s.phase = .commit pc
  after : ∃ pc, s'.phase = .commit pc
  committing : s'.committing = s.committing
  outstanding : s'.outstanding = s.outstanding
  lh : s'.lh = s.lh ∧ (s'.phase.Cleared → s.phase.Cleared) ∨ s'.lh = []
  hist : ∃ n, s.hist.durable ≤ n ∧ s'.hist = { s.hist with durable := n }
  procs : s'.procs = s.procs
  panicked : s'.panicked = s.panicked

theorem commit_frame (hs : commit A s = some s') : CommitFrame s s' := by
  unfold commit at hs
  split at hs
  · rename_i hph
    split at hs <;> obtain rfl := Option.some.inj hs <;>
      exact ⟨⟨_, hph⟩, ⟨_, rfl⟩, rfl, rfl, .inl ⟨rfl, False.elim⟩, ⟨_, le_rfl, rfl⟩, rfl, rfl⟩
  · rename_i hph
    cases hs
    exact ⟨⟨_, hph⟩, ⟨_, rfl⟩, rfl, rfl, .inl ⟨rfl, False.elim⟩, ⟨_, Nat.le_succ _, rfl⟩, rfl, rfl⟩
  · rename_i hph
    split at hs <;> cases hs
    · exact ⟨⟨_, hph⟩, ⟨_, rfl⟩, rfl, rfl, .inl ⟨rfl, False.elim⟩, ⟨_, le_rfl, rfl⟩, rfl, rfl⟩
    · exact ⟨⟨_, hph⟩, ⟨_, rfl⟩, rfl, rfl, .inr rfl, ⟨_, le_rfl, rfl⟩, rfl, rfl⟩
  · rename_i hph
    cases hs
    exact ⟨⟨_, hph⟩, ⟨_, rfl⟩, rfl, rfl, .inl ⟨rfl, fun _ => by rw [hph]; trivial⟩,
      ⟨_, le_rfl, rfl⟩, rfl, rfl⟩
  · cases hs

/-- A step of `recover_from_log()`: the history and the processes stay, and the
kernel comes up with the header emptied. -/
structure RecoverFrame (s s' : State) : Prop where
  before : ∃ pc, s.phase = .recover pc
  after : (∃ pc, s'.phase = .recover pc) ∨
    s.phase.Cleared ∧ s'.phase = .running ∧ s'.lh = s.lh
  committing : s'.committing = s.committing
  outstanding : s'.outstanding = s.outstanding
  cleared : s'.phase.Cleared → s'.lh = []
  hist : s'.hist = s.hist
  procs : s'.procs = s.procs
  panicked : s'.panicked = s.panicked

theorem recover_frame (hs : recover A s = some s') : RecoverFrame s s' := by
  unfold recover at hs
  split at hs
  · rename_i hph
    cases hs
    exact ⟨⟨_, hph⟩, .inl ⟨_, rfl⟩, rfl, rfl, False.elim, rfl, rfl, rfl⟩
  · rename_i hph
    split at hs <;> cases hs
    · exact ⟨⟨_, hph⟩, .inl ⟨_, rfl⟩, rfl, rfl, False.elim, rfl, rfl, rfl⟩
    · exact ⟨⟨_, hph⟩, .inl ⟨_, rfl⟩, rfl, rfl, fun _ => rfl, rfl, rfl, rfl⟩
  · rename_i hph
    cases hs
    exact ⟨⟨_, hph⟩, .inr ⟨by rw [hph]; trivial, rfl, rfl⟩, rfl, rfl, False.elim, rfl, rfl, rfl⟩
  · cases hs

/-! ## Processes, phase and in-memory header -/

/-- The kernel is past `recover_from_log`. -/
def Phase.Up : Phase → Prop
  | .recover _ => False
  | _ => True

theorem State.up_of_live (h : s.live = true) : s.phase.Up := by
  unfold State.live at h
  cases hph : s.phase with
  | running => trivial
  | commit pc => trivial
  | recover pc => simp [hph] at h

/-- Processes are inside operations only while the kernel runs normally, and the
in-memory header lists the open transaction's blocks. -/
structure OpsInv (s : State) : Prop where
  active : ∃ F : Finset Pid, (∀ p, p ∈ F ↔ s.procs p ≠ .outside) ∧ F.card = s.outstanding
  quiet : s.phase ≠ .running → ∀ p, s.procs p = .outside
  txn_nil : s.phase ≠ .running → s.hist.txn = []
  committing : s.committing = true ↔ ∃ pc, s.phase = .commit pc
  lh_nodup : s.phase.Up → s.lh.Nodup
  lh_mem : s.phase = .running → ∀ b, b ∈ s.lh ↔ b ∈ s.hist.txn.map Upd.blockno
  lh_cleared : s.phase.Cleared → s.lh = []

namespace OpsInv

section

variable (h : OpsInv s)
include h

/-- A process inside an operation means that no commit or recovery is under way. -/
theorem running_of_active {p : Pid} (hp : s.procs p ≠ .outside) :
    s.phase = .running := by
  by_contra hne
  exact hp (h.quiet hne p)

theorem running_of_not_committing (hup : s.phase.Up) (hc : s.committing = false) :
    s.phase = .running := by
  cases hph : s.phase with
  | running => rfl
  | commit pc =>
    have := h.committing.mpr ⟨pc, hph⟩
    rw [hc] at this
    exact absurd this Bool.false_ne_true
  | recover pc => exact absurd (hph ▸ hup) (by simp [Phase.Up])

theorem not_committing (hrun : s.phase = .running) : s.committing = false := by
  by_contra hne
  obtain ⟨pc, hpc⟩ := h.committing.mp (by simpa using hne)
  rw [hrun] at hpc
  cases hpc

/-- The last operation out finds every process outside. -/
theorem outside_of_last {p : Pid} (hp : s.procs p ≠ .outside) (hlast : s.outstanding - 1 = 0)
    (q : Pid) :
    update s.procs p .outside q = .outside := by
  obtain ⟨F, hF, hcard⟩ := h.active
  by_cases hq : q = p
  · rw [hq, update_self]
  · rw [update_of_ne hq]
    by_contra hne
    have := Finset.one_lt_card.mpr ⟨q, (hF q).mpr hne, p, (hF p).mpr hp, hq⟩
    omega

theorem frame (hf : Frame s s') : OpsInv s' where
  active := by
    obtain ⟨F, hF, hcard⟩ := h.active
    exact ⟨F, fun p => (hF p).trans (hf.procs_ne p).symm, hcard.trans hf.outstanding.symm⟩
  quiet hne p := by
    by_contra hp
    exact (hf.procs_ne p).mp hp (h.quiet (hf.phase ▸ hne) p)
  txn_nil hne := by rw [hf.hist]; exact h.txn_nil (hf.phase ▸ hne)
  committing := by rw [hf.committing, hf.phase]; exact h.committing
  lh_nodup hr := by rw [hf.lh]; exact h.lh_nodup (hf.phase ▸ hr)
  lh_mem hr := by rw [hf.lh, hf.hist]; exact h.lh_mem (hf.phase ▸ hr)
  lh_cleared hd := by rw [hf.lh]; exact h.lh_cleared (hf.phase ▸ hd)

theorem beginOp (hup : s.phase.Up) {p : Pid} (hs : beginOp s p = some s') :
    OpsInv s' := by
  obtain ⟨⟨hout, hcom, -⟩, hs⟩ := Option.ite_none_right_eq_some.mp hs
  cases hs
  have hrun := h.running_of_not_committing hup hcom
  exact {
    active := by
      obtain ⟨F, hF, hcard⟩ := h.active
      refine ⟨insert p F, fun q => ?_, ?_⟩
      · by_cases hq : q = p
        · simp [hq]
        · simp [hq, hF q]
      · rw [Finset.card_insert_of_notMem (by simp [hF, hout]), hcard]
    quiet := fun hne => absurd hrun hne
    txn_nil := fun hne => absurd hrun hne
    committing := h.committing
    lh_nodup := h.lh_nodup
    lh_mem := h.lh_mem
    lh_cleared := h.lh_cleared }

theorem logRecord {p : Pid} (hs : logRecord s p = some s') : OpsInv s' := by
  unfold Log.logRecord at hs
  split at hs
  · rename_i op un b hpr
    cases hs
    have hact : s.procs p ≠ .outside := by simp [hpr]
    have hrun := h.running_of_active hact
    have hnodup := h.lh_nodup (by rw [hrun]; trivial)
    exact {
      active := by
        obtain ⟨F, hF, hcard⟩ := h.active
        refine ⟨F, fun q => ?_, hcard⟩
        by_cases hq : q = p
        · simp [hq, hF, hact]
        · simp [update_of_ne hq, hF q]
      quiet := fun hne => absurd hrun hne
      txn_nil := fun hne => absurd hrun hne
      committing := h.committing
      lh_nodup := fun _ => by
        dsimp only
        split
        · exact hnodup
        · rename_i hb
          rw [← List.concat_eq_append]
          exact List.Nodup.concat hb hnodup
      lh_mem := fun _ x => by
        have hx := h.lh_mem hrun x
        dsimp only
        split
        · rename_i hb
          have hb' := (h.lh_mem hrun b).mp hb
          simp only [List.map_append, List.map_cons, List.map_nil, List.mem_append,
            List.mem_singleton, hx]
          exact ⟨.inl, fun h => h.elim id fun he => he ▸ hb'⟩
        · simp [hx]
      lh_cleared := fun hd => by simp [hrun, Phase.Cleared] at hd }
  all_goals cases hs

theorem endOp {p : Pid} (hs : endOp s p = some s') : OpsInv s' := by
  unfold Log.endOp at hs
  split at hs
  case h_2 => cases hs
  rename_i op hpr
  have hact : s.procs p ≠ .outside := by simp [hpr]
  have hrun := h.running_of_active hact
  have hnodup := h.lh_nodup (by rw [hrun]; trivial)
  simp only [h.not_committing hrun, Bool.false_eq_true, if_false] at hs
  split at hs
  · rename_i hlast
    have hquiet := h.outside_of_last hact hlast
    have hactive : ∃ F : Finset Pid,
        (∀ q, q ∈ F ↔ update s.procs p .outside q ≠ .outside) ∧
          F.card = s.outstanding - 1 :=
      ⟨∅, fun q => by simp [hquiet q], by simp [hlast]⟩
    split at hs
    · rename_i hnil
      cases hs
      exact ⟨hactive, fun _ => hquiet, fun _ => rfl, ⟨fun _ => ⟨_, rfl⟩, fun _ => rfl⟩,
        fun _ => hnodup, by simp, fun _ => hnil⟩
    · cases hs
      exact ⟨hactive, fun _ => hquiet, fun _ => rfl, ⟨fun _ => ⟨_, rfl⟩, fun _ => rfl⟩,
        fun _ => hnodup, by simp, False.elim⟩
  · cases hs
    exact {
      active := by
        obtain ⟨F, hF, hcard⟩ := h.active
        refine ⟨F.erase p, fun q => ?_, ?_⟩
        · by_cases hq : q = p
          · simp [hq]
          · simp [hq, hF q]
        · rw [Finset.card_erase_of_mem ((hF p).mpr hact), hcard]
      quiet := fun hne => absurd hrun hne
      txn_nil := fun hne => absurd hrun hne
      committing := by simp [hrun]
      lh_nodup := h.lh_nodup
      lh_mem := h.lh_mem
      lh_cleared := h.lh_cleared }

theorem commit (hs : commit A s = some s') : OpsInv s' := by
  have hf := commit_frame hs
  obtain ⟨pc, hpc⟩ := hf.before
  obtain ⟨pc', hpc'⟩ := hf.after
  obtain ⟨n, -, hh⟩ := hf.hist
  have hne : s.phase ≠ .running := by simp [hpc]
  exact {
    active := by rw [hf.procs, hf.outstanding]; exact h.active
    quiet := fun _ => by rw [hf.procs]; exact h.quiet hne
    txn_nil := fun _ => by rw [hh]; exact h.txn_nil hne
    committing := by rw [hf.committing, hpc', h.committing, hpc]; simp
    lh_nodup := fun _ => by
      rcases hf.lh with ⟨hl, -⟩ | hl <;> rw [hl]
      · exact h.lh_nodup (by rw [hpc]; trivial)
      · exact List.nodup_nil
    lh_mem := fun hr => by simp [hpc'] at hr
    lh_cleared := fun hc => by
      rcases hf.lh with ⟨hl, hcl⟩ | hl
      · rw [hl]
        exact h.lh_cleared (hcl hc)
      · exact hl }

theorem endCommit (hs : endCommit s = some s') : OpsInv s' := by
  obtain ⟨hph, hs⟩ := Option.ite_none_right_eq_some.mp hs
  cases hs
  have hne : s.phase ≠ .running := by simp [hph]
  have hnil : s.lh = [] := h.lh_cleared (by rw [hph]; trivial)
  exact {
    active := h.active
    quiet := fun hc => absurd rfl hc
    txn_nil := fun hc => absurd rfl hc
    committing := by simp
    lh_nodup := fun _ => by rw [hnil]; exact List.nodup_nil
    lh_mem := fun _ b => by simp [hnil, h.txn_nil hne]
    lh_cleared := False.elim }

theorem recover (hs : recover A s = some s') : OpsInv s' := by
  have hf := recover_frame hs
  obtain ⟨pc, hpc⟩ := hf.before
  have hne : s.phase ≠ .running := by simp [hpc]
  have hnocommit : ¬ ∃ pc, s'.phase = .commit pc := by
    rintro ⟨pc', hpc'⟩
    rcases hf.after with ⟨pc'', hpc''⟩ | ⟨-, hr, -⟩
    · simp [hpc'] at hpc''
    · simp [hpc'] at hr
  have hup : s'.phase = .running → s'.lh = [] := by
    intro hr
    rcases hf.after with ⟨pc', hpc'⟩ | ⟨hc, -, hl⟩
    · simp [hr] at hpc'
    · rw [hl]
      exact h.lh_cleared hc
  exact {
    active := by rw [hf.procs, hf.outstanding]; exact h.active
    quiet := fun _ => by rw [hf.procs]; exact h.quiet hne
    txn_nil := fun _ => by rw [hf.hist]; exact h.txn_nil hne
    committing := by
      rw [hf.committing, h.committing, hpc]
      exact iff_of_false (by simp) hnocommit
    lh_nodup := fun hr => by
      rcases hf.after with ⟨pc', hpc'⟩ | ⟨-, hr', -⟩
      · exact absurd (hpc' ▸ hr) (by simp [Phase.Up])
      · rw [hup hr']
        exact List.nodup_nil
    lh_mem := fun hr b => by simp [hup hr, hf.hist, h.txn_nil hne]
    lh_cleared := hf.cleared }

end

theorem crash (s : State) : OpsInv (crash s) :=
  ⟨⟨∅, fun _ => by simp [Log.crash], rfl⟩, fun _ _ => rfl, fun _ => rfl,
    by simp [Log.crash], False.elim, by simp [Log.crash], False.elim⟩

/-- Every step keeps the processes' invariant. -/
theorem step (h : OpsInv s) (hs : step A s a = some s') : OpsInv s' := by
  cases a with
  | crash =>
    cases hs
    exact crash s
  | beginOp p =>
    obtain ⟨hl, hs⟩ := Option.ite_none_right_eq_some.mp hs
    exact h.beginOp (State.up_of_live hl) hs
  | bread p b => exact h.frame (bread_frame (of_guard hs))
  | modify p b data => exact h.frame (modify_frame (of_guard hs))
  | logWrite p b => exact h.frame (logWrite_frame (of_guard hs))
  | logRecord p => exact h.logRecord (of_guard hs)
  | brelse p b => exact h.frame (brelse_frame (of_guard hs))
  | endOp p => exact h.endOp (of_guard hs)
  | evict b => exact h.frame (evict_frame (of_guard hs))
  | commit => exact h.commit (of_guard hs)
  | endCommit => exact h.endCommit (of_guard hs)
  | recover => exact h.recover (of_guard hs)

theorem boot (d : BlockNo → Block) : OpsInv (boot d) :=
  ⟨⟨∅, fun _ => by simp [Log.boot], rfl⟩, fun _ _ => rfl, fun _ => rfl,
    by simp [Log.boot], False.elim, by simp [Log.boot], False.elim⟩

end OpsInv

/-! ## Operations and groups -/

/-- The updates that one operation contributed to a list, in order. -/
def updatesOf (o : OpId) (us : List Upd) : List Upd := us.filter fun u => u.op = o

@[simp] theorem updatesOf_concat (o : OpId) (us : List Upd) (u : Upd) :
    updatesOf o (us ++ [u]) = updatesOf o us ++ if u.op = o then [u] else [] := by
  by_cases h : u.op = o <;> simp [updatesOf, List.filter_append, h]

theorem updatesOf_eq_nil {o : OpId} {us : List Upd} (h : ∀ u ∈ us, u.op ≠ o) :
    updatesOf o us = [] := by
  simpa [updatesOf, List.filter_eq_nil_iff] using h

/-- Operations and groups: every update of an operation is in the one transaction
or group the operation belongs to. -/
structure HistInv (s : State) : Prop where
  issued_lt : ∀ u ∈ s.hist.issued, u.op < s.hist.nextOp
  members_lt : ∀ o ∈ s.hist.members, o < s.hist.nextOp
  groups_lt : ∀ g ∈ s.hist.groups, ∀ o ∈ g.ops, o < s.hist.nextOp
  active : ∀ p o, (s.procs p).op? = some o → o ∈ s.hist.members
  active_inj : ∀ p q o, (s.procs p).op? = some o → (s.procs q).op? = some o → p = q
  txn_members : ∀ u ∈ s.hist.txn, u.op ∈ s.hist.members
  txn_whole : ∀ o ∈ s.hist.members, updatesOf o s.hist.txn = updatesOf o s.hist.issued
  upds_ops : ∀ g ∈ s.hist.groups, ∀ u ∈ g.upds, u.op ∈ g.ops
  whole : ∀ g ∈ s.hist.groups, ∀ o ∈ g.ops, updatesOf o g.upds = updatesOf o s.hist.issued
  disjoint : s.hist.groups.Pairwise fun g g' => List.Disjoint g.ops g'.ops
  fresh : ∀ g ∈ s.hist.groups, List.Disjoint g.ops s.hist.members

namespace HistInv

section

variable (h : HistInv s)
include h

/-- Steps that at most take processes out of operations and count a group durable. -/
theorem of_hist {n : ℕ} (hh : s'.hist = { s.hist with durable := n })
    (hp : ∀ p o, (s'.procs p).op? = some o → (s.procs p).op? = some o) : HistInv s' := by
  have hinj := fun p q o hpo hqo => h.active_inj p q o (hp p o hpo) (hp q o hqo)
  refine ⟨?_, ?_, ?_, ?_, hinj, ?_, ?_, ?_, ?_, ?_, ?_⟩ <;> rw [hh]
  · exact h.issued_lt
  · exact h.members_lt
  · exact h.groups_lt
  · exact fun p o hpo => h.active p o (hp p o hpo)
  · exact h.txn_members
  · exact h.txn_whole
  · exact h.upds_ops
  · exact h.whole
  · exact h.disjoint
  · exact h.fresh

theorem frame (hf : Frame s s') : HistInv s' :=
  h.of_hist (n := s.hist.durable) hf.hist fun p _ hp => hf.op p ▸ hp

theorem beginOp {p : Pid} (hs : beginOp s p = some s') : HistInv s' := by
  replace hs := of_guard hs
  cases hs
  have hissued : ∀ u ∈ s.hist.issued, u.op ≠ s.hist.nextOp := fun u hu => (h.issued_lt u hu).ne
  have htxn : ∀ u ∈ s.hist.txn, u.op ≠ s.hist.nextOp :=
    fun u hu => (h.members_lt _ (h.txn_members u hu)).ne
  have hactive : ∀ q o, q ≠ p →
      (update s.procs p (.inOp s.hist.nextOp []) q).op? = some o →
      o ∈ s.hist.members := by
    intro q o hq ho
    rw [update_of_ne hq] at ho
    exact h.active q o ho
  have hself : ∀ o, (update s.procs p (.inOp s.hist.nextOp []) p).op? = some o →
      o = s.hist.nextOp := by
    intro o ho
    rw [update_self] at ho
    exact (Option.some.inj ho).symm
  constructor
  · exact fun u hu => Nat.lt_succ_of_lt (h.issued_lt u hu)
  · intro o ho
    rcases List.mem_append.mp ho with ho | ho
    · exact Nat.lt_succ_of_lt (h.members_lt o ho)
    · exact List.mem_singleton.mp ho ▸ Nat.lt_succ_self _
  · exact fun g hg o ho => Nat.lt_succ_of_lt (h.groups_lt g hg o ho)
  · intro q o ho
    by_cases hq : q = p
    · subst hq
      exact List.mem_append_right _ (List.mem_singleton.mpr (hself o ho))
    · exact List.mem_append_left _ (hactive q o hq ho)
  · -- The new operation's number is above every member's.
    intro q q' o ho ho'
    by_cases hq : q = p <;> by_cases hq' : q' = p
    · rw [hq, hq']
    · subst hq
      have := h.members_lt o (hactive q' o hq' ho')
      exact absurd (hself o ho) this.ne
    · subst hq'
      have := h.members_lt o (hactive q o hq ho)
      exact absurd (hself o ho') this.ne
    · simp only [update_of_ne hq, update_of_ne hq'] at ho ho'
      exact h.active_inj q q' o ho ho'
  · exact fun u hu => List.mem_append_left _ (h.txn_members u hu)
  · intro o ho
    rcases List.mem_append.mp ho with ho | ho
    · exact h.txn_whole o ho
    · obtain rfl := List.mem_singleton.mp ho
      exact (updatesOf_eq_nil htxn).trans (updatesOf_eq_nil hissued).symm
  · exact h.upds_ops
  · exact h.whole
  · exact h.disjoint
  · intro g hg o ho hm
    rcases List.mem_append.mp hm with hm | hm
    · exact h.fresh g hg ho hm
    · exact (h.groups_lt g hg o ho).ne (List.mem_singleton.mp hm)

theorem logRecord {p : Pid} (hs : logRecord s p = some s') : HistInv s' := by
  unfold Log.logRecord at hs
  split at hs
  · rename_i op un b hpr
    cases hs
    have hop : op ∈ s.hist.members := h.active p op (by rw [hpr]; rfl)
    -- The operation is in no group, so no group's updates change.
    have hother : ∀ g ∈ s.hist.groups, ∀ o ∈ g.ops, op ≠ o := by
      rintro g hg o ho rfl
      exact h.fresh g hg ho hop
    have hsame : ∀ q, (update s.procs p (.inOp op (un.filter (· ≠ b))) q).op? =
        (s.procs q).op? := op?_update (by rw [hpr]; rfl)
    constructor
    · intro u hu
      rcases List.mem_append.mp hu with hu | hu
      · exact h.issued_lt u hu
      · obtain rfl := List.mem_singleton.mp hu
        exact h.members_lt op hop
    · exact h.members_lt
    · exact h.groups_lt
    · exact fun q o hq => h.active q o (hsame q ▸ hq)
    · exact fun q q' o hq hq' => h.active_inj q q' o (hsame q ▸ hq) (hsame q' ▸ hq')
    · intro u hu
      rcases List.mem_append.mp hu with hu | hu
      · exact h.txn_members u hu
      · obtain rfl := List.mem_singleton.mp hu
        exact hop
    · intro o ho
      dsimp only
      rw [updatesOf_concat, updatesOf_concat, h.txn_whole o ho]
    · exact h.upds_ops
    · intro g hg o ho
      dsimp only
      rw [updatesOf_concat, if_neg (hother g hg o ho), List.append_nil]
      exact h.whole g hg o ho
    · exact h.disjoint
    · exact h.fresh
  all_goals cases hs

/-- The last `end_op` turns the open transaction into a group. -/
theorem endOp (hops : OpsInv s) {p : Pid} (hs : endOp s p = some s') :
    HistInv s' := by
  unfold Log.endOp at hs
  split at hs
  case h_2 => cases hs
  rename_i op hpr
  have hact : s.procs p ≠ .outside := by simp [hpr]
  have hless : ∀ q o, (update s.procs p .outside q).op? = some o →
      (s.procs q).op? = some o := by
    intro q o ho
    by_cases hq : q = p
    · subst hq
      rw [update_self] at ho
      exact absurd ho (by simp [Proc.op?])
    · rwa [update_of_ne hq] at ho
  simp only [hops.not_committing (hops.running_of_active hact), Bool.false_eq_true, if_false] at hs
  split at hs
  · rename_i hlast
    have hnone : ∀ q o, (update s.procs p .outside q).op? ≠ some o := by
      intro q o
      rw [hops.outside_of_last hact hlast q]
      simp [Proc.op?]
    split at hs
    · cases hs
      exact ⟨h.issued_lt, by simp, h.groups_lt, fun q o hq => absurd hq (hnone q o),
        fun q _ o hq => absurd hq (hnone q o), by simp, by simp, h.upds_ops, h.whole, h.disjoint,
        by simp⟩
    · cases hs
      refine ⟨h.issued_lt, by simp, ?_, fun q o hq => absurd hq (hnone q o),
        fun q _ o hq => absurd hq (hnone q o), by simp, by simp, ?_, ?_, ?_, by simp⟩
      · intro g hg o ho
        rcases List.mem_append.mp hg with hg | hg
        · exact h.groups_lt g hg o ho
        · obtain rfl := List.mem_singleton.mp hg
          exact h.members_lt o ho
      · intro g hg u hu
        rcases List.mem_append.mp hg with hg | hg
        · exact h.upds_ops g hg u hu
        · obtain rfl := List.mem_singleton.mp hg
          exact h.txn_members u hu
      · intro g hg o ho
        rcases List.mem_append.mp hg with hg | hg
        · exact h.whole g hg o ho
        · obtain rfl := List.mem_singleton.mp hg
          exact h.txn_whole o ho
      · refine List.pairwise_append.mpr ⟨h.disjoint, List.pairwise_singleton _ _, ?_⟩
        intro g hg g' hg'
        obtain rfl := List.mem_singleton.mp hg'
        exact h.fresh g hg
  · cases hs
    exact h.of_hist (n := s.hist.durable) rfl hless

theorem crash : HistInv (crash s) := by
  have hsub : ∀ g ∈ s.hist.groups.take s.hist.durable, g ∈ s.hist.groups :=
    fun g hg => List.mem_of_mem_take hg
  exact ⟨h.issued_lt, by simp [Log.crash], fun g hg => h.groups_lt g (hsub g hg),
    fun p o hp => absurd hp (by simp [Log.crash, Proc.op?]),
    fun p _ o hp => absurd hp (by simp [Log.crash, Proc.op?]), by simp [Log.crash],
    by simp [Log.crash], fun g hg => h.upds_ops g (hsub g hg),
    fun g hg => h.whole g (hsub g hg), h.disjoint.sublist (List.take_sublist _ _),
    by simp [Log.crash]⟩

/-- Every step keeps the history invariant. -/
theorem step (hops : OpsInv s) (hs : step A s a = some s') : HistInv s' := by
  cases a with
  | crash =>
    cases hs
    exact h.crash
  | beginOp p => exact h.beginOp (of_guard hs)
  | bread p b => exact h.frame (bread_frame (of_guard hs))
  | modify p b data => exact h.frame (modify_frame (of_guard hs))
  | logWrite p b => exact h.frame (logWrite_frame (of_guard hs))
  | logRecord p => exact h.logRecord (of_guard hs)
  | brelse p b => exact h.frame (brelse_frame (of_guard hs))
  | endOp p => exact h.endOp hops (of_guard hs)
  | evict b => exact h.frame (evict_frame (of_guard hs))
  | commit =>
    have hf := commit_frame (of_guard hs)
    obtain ⟨n, -, hh⟩ := hf.hist
    exact h.of_hist hh fun p o hp => by rwa [hf.procs] at hp
  | endCommit =>
    replace hs := of_guard (of_guard hs)
    cases hs
    exact h.of_hist (n := s.hist.durable) rfl fun _ _ hp => hp
  | recover =>
    have hf := recover_frame (of_guard hs)
    exact h.of_hist (n := s.hist.durable) hf.hist fun p o hp => by rwa [hf.procs] at hp

end

theorem boot (d : BlockNo → Block) : HistInv (boot d) := by
  constructor <;> simp [Log.boot, Proc.op?]

end HistInv

/-! ## Durable groups -/

/-- The groups whose header reached the disk, in order. -/
def State.durableGroups (s : State) : List Group := s.hist.groups.take s.hist.durable

/-- No step takes a group away once its header is on disk. -/
theorem durableGroups_mono (hle : s.hist.durable ≤ s.hist.groups.length)
    (hs : step A s a = some s') : s.durableGroups <+: s'.durableGroups := by
  have hsame : s'.hist.groups = s.hist.groups → s'.hist.durable = s.hist.durable →
      s.durableGroups <+: s'.durableGroups := by
    intro hg hn
    rw [State.durableGroups, State.durableGroups, hg, hn]
  have hframe : Frame s s' → s.durableGroups <+: s'.durableGroups :=
    fun hf => hsame (by rw [hf.hist]) (by rw [hf.hist])
  cases a with
  | crash =>
    cases hs
    simp [State.durableGroups, Log.crash, List.take_take]
  | beginOp p =>
    replace hs := of_guard (of_guard hs)
    cases hs
    exact hsame rfl rfl
  | bread p b => exact hframe (bread_frame (of_guard hs))
  | modify p b data => exact hframe (modify_frame (of_guard hs))
  | logWrite p b => exact hframe (logWrite_frame (of_guard hs))
  | logRecord p =>
    have hs := of_guard hs
    unfold Log.logRecord at hs
    split at hs
    · cases hs
      exact hsame rfl rfl
    all_goals cases hs
  | brelse p b => exact hframe (brelse_frame (of_guard hs))
  | endOp p =>
    have hs := of_guard hs
    unfold Log.endOp at hs
    split at hs
    case h_2 => cases hs
    dsimp only at hs
    split at hs
    · cases hs
      exact hsame rfl rfl
    split at hs
    · split at hs <;> cases hs
      · exact hsame rfl rfl
      · simp [State.durableGroups, List.take_append_of_le_length hle]
    · cases hs
      exact hsame rfl rfl
  | evict b => exact hframe (evict_frame (of_guard hs))
  | commit =>
    obtain ⟨n, hn, hh⟩ := (commit_frame (of_guard hs)).hist
    rw [State.durableGroups, State.durableGroups, hh]
    exact List.take_prefix_take_left hn
  | endCommit =>
    replace hs := of_guard (of_guard hs)
    cases hs
    exact hsame rfl rfl
  | recover =>
    have hh := (recover_frame (of_guard hs)).hist
    exact hsame (by rw [hh]) (by rw [hh])

end Xv6.Log
