import Xv6.Log.Ops

/-!
# The invariant of the log machine

The disk always restores to the image of the groups whose header reached it, and
the buffer cache shows that image with the open transaction's updates on top.
`PhaseInv` says where the two differ at each point of `commit()` and of
`recover_from_log()`; everything a crash can meet is in its `Pending` fields.

## Main definitions

* `durableImage d₀ s`, `target d₀ s` — the home blocks after the durable groups,
  and after every update so far.
* `Inv A d₀ s` — the invariant.
* `Assumed A s a` — logged blocks lie outside the log area and the log has room.
-/

namespace Xv6.Log

open Function RedoLog Machine

/-! ## The header block -/

theorem readHead_writeHead (hb : Block) {lh : List BlockNo} (h : lh.length < 128) :
    readHead (writeHead hb lh) = lh := by
  have h0 : (writeHead hb lh).word 0 = lh.length := by simp [Block.word, writeHead]
  apply List.ext_getElem
  · simp [readHead, h0]
  · intro i hi hi'
    have hlt : i + 1 < 128 := by omega
    simp [readHead, Block.word, writeHead, hlt, hi']

/-- The log area as a redo-log layout: the header block, then the slots. -/
def Area.layout (A : Area) : Layout BlockNo Block where
  head := A.start
  slot i := A.start + i + 1
  Home := A.Home
  decode := readHead
  slot_injective i j h := by simpa using h
  slot_ne_head i := by
    show A.start + i + 1 ≠ A.start
    omega
  head_not_home := by
    have := A.size_pos
    unfold Area.Home
    omega

/-- Slots below the area's size are not home blocks. -/
theorem Area.slot_not_home (A : Area) {i : ℕ} (h : i + 1 < A.size) :
    ¬ A.Home (A.start + i + 1) := by
  unfold Area.Home
  omega

/-! ## Views of the cache -/

@[simp] theorem State.data_bread (s : State) (b : BlockNo) : (s.bread b).data = s.view b := by
  unfold State.bread State.view
  cases s.cache b <;> rfl

theorem State.view_of_cache {s : State} {b : BlockNo} {buf : Buf} (h : s.cache b = some buf) :
    s.view b = buf.data := by
  unfold State.view
  rw [h]

/-- Replacing the buffer of one block changes what is read of that block only. -/
theorem State.view_congr {s s' : State} {x : BlockNo} (hd : s'.disk x = s.disk x)
    (hc : s'.cache x = s.cache x) : s'.view x = s.view x := by
  unfold State.view
  rw [hd, hc]

theorem State.view_update {s s' : State} {b : BlockNo} {buf : Buf} (hd : s'.disk = s.disk)
    (hc : s'.cache = update s.cache b (some buf)) (x : BlockNo) :
    s'.view x = update s.view b buf.data x := by
  by_cases h : x = b
  · subst h
    rw [update_self, State.view_of_cache (by rw [hc, update_self])]
  · rw [update_of_ne h]
    exact State.view_congr (by rw [hd]) (by rw [hc, update_of_ne h])

theorem State.view_bwrite (s : State) (b : BlockNo) (v : Block) (x : BlockNo) :
    (s.bwrite b v).view x = update s.view b v x := by
  by_cases h : x = b
  · subst h
    rw [update_self, State.view_of_cache (update_self ..)]
  · rw [update_of_ne h]
    exact State.view_congr (update_of_ne h ..) (update_of_ne h ..)

/-! ## The invariant -/

/-- No process has an unlogged modification of block `b`. -/
def State.Settled (s : State) (b : BlockNo) : Prop := ∀ p, b ∉ (s.procs p).unlogged

/-- The home blocks after the groups whose header reached the disk. -/
def durableImage (d₀ : BlockNo → Block) (s : State) : BlockNo → Block :=
  applyGroups (s.hist.groups.take s.hist.durable) d₀

/-- The home blocks after every group and the open transaction. -/
def target (d₀ : BlockNo → Block) (s : State) : BlockNo → Block :=
  applyUpds (s.hist.txn.map fun u => (u.blockno, u.data)) (applyGroups s.hist.groups d₀)

/-- The buffers of the listed blocks cannot be recycled. -/
def Pinned (s : State) (bs : List BlockNo) : Prop :=
  ∀ b ∈ bs, ∃ buf, s.cache b = some buf ∧ buf.dirty = true

/-- The in-memory header: home blocks that fit in the area. -/
structure HeaderOk (A : Area) (lh : List BlockNo) : Prop where
  home : ∀ b ∈ lh, A.Home b
  fits : lh.length < A.size
  fits_head : lh.length ≤ LOGSIZE

/-- Before the commit point: the header on disk is empty, the first `tail` slots
are written, and only blocks of the header differ from the durable image. -/
structure Logged (A : Area) (d₀ : BlockNo → Block) (s : State) (tail : ℕ) : Prop where
  durable : s.hist.durable + 1 = s.hist.groups.length
  disk : Pending A.layout [] s.disk (durableImage d₀ s) 0
  tail_le : tail ≤ s.lh.length
  slots : ∀ i (h : i < s.lh.length), i < tail → s.disk (A.start + i + 1) = target d₀ s s.lh[i]
  others : ∀ b, A.Home b → b ∉ s.lh → target d₀ s b = durableImage d₀ s b
  pinned : Pinned s s.lh

/-- The part of the invariant that depends on the phase. -/
def PhaseInv (A : Area) (d₀ : BlockNo → Block) (s : State) : Prop :=
  match s.phase with
  | .running =>
    s.hist.durable = s.hist.groups.length ∧
      Pending A.layout [] s.disk (durableImage d₀ s) 0 ∧ Pinned s s.lh
  | .commit (.writeLog tail) => Logged A d₀ s tail
  | .commit .writeHead => Logged A d₀ s s.lh.length
  | .commit (.install tail) =>
    s.hist.durable = s.hist.groups.length ∧
      Pending A.layout s.lh s.disk (durableImage d₀ s) tail ∧ Pinned s (s.lh.drop tail)
  | .commit .clearHead =>
    s.hist.durable = s.hist.groups.length ∧
      ∃ ts, Pending A.layout ts s.disk (durableImage d₀ s) ts.length
  | .commit .done =>
    s.hist.durable = s.hist.groups.length ∧
      Pending A.layout [] s.disk (durableImage d₀ s) 0
  | .recover .readHead =>
    s.hist.durable = s.hist.groups.length ∧
      Recoverable A.layout s.disk (durableImage d₀ s) ∧ ∀ b, s.view b = s.disk b
  | .recover (.install tail) =>
    s.hist.durable = s.hist.groups.length ∧
      Pending A.layout s.lh s.disk (durableImage d₀ s) tail ∧ ∀ b, s.view b = s.disk b
  | .recover .clearHead =>
    s.hist.durable = s.hist.groups.length ∧
      (∃ ts, Pending A.layout ts s.disk (durableImage d₀ s) ts.length) ∧
        ∀ b, s.view b = s.disk b

/-- The invariant. -/
structure Inv (A : Area) (d₀ : BlockNo → Block) (s : State) : Prop extends OpsInv s where
  held : ∀ p b, b ∈ (s.procs p).busy → s.owner b = some p
  locked : ∀ b p, s.owner b = some p → ∃ buf, s.cache b = some buf
  header : s.phase.Up → HeaderOk A s.lh
  view_home : s.phase.Up → ∀ b, A.Home b → s.Settled b → s.view b = target d₀ s b
  view_area : ∀ b, ¬ A.Home b → s.Settled b → s.view b = s.disk b
  phase : PhaseInv A d₀ s

/-- What callers promise: logged blocks lie outside the log area, and the log
has room for a block not yet in it. -/
def Assumed (A : Area) (s : State) (a : Action) : Prop :=
  ∀ b ∈ recording s a,
    A.Home b ∧ (b ∉ s.lh → s.lh.length < LOGSIZE ∧ s.lh.length + 1 < A.size)

instance (A : Area) (s : State) (a : Action) : Decidable (Assumed A s a) :=
  inferInstanceAs (Decidable (∀ b ∈ recording s a, _))

theorem State.settled_of_outside {s : State} (h : ∀ p, s.procs p = .outside) (b : BlockNo) :
    s.Settled b := by
  intro p
  rw [h p]
  exact List.not_mem_nil

theorem Proc.unlogged_subset_busy (pr : Proc) : pr.unlogged ⊆ pr.busy := by
  cases pr with
  | outside => exact List.Subset.refl _
  | inOp op un => exact List.Subset.refl _
  | logging op un b => exact List.subset_cons_self _ _

namespace Inv

variable {A : Area} {d₀ : BlockNo → Block} {s : State}

theorem settled_of_owner (h : Inv A d₀ s) {b : BlockNo} (hb : s.owner b = none) :
    s.Settled b := by
  intro p hp
  have := h.held p b ((s.procs p).unlogged_subset_busy hp)
  rw [hb] at this
  cases this

theorem durable_le (h : Inv A d₀ s) : s.hist.durable ≤ s.hist.groups.length := by
  have hph := h.phase
  unfold PhaseInv at hph
  split at hph
  · exact hph.1.le
  · have := hph.durable; omega
  · have := hph.durable; omega
  all_goals exact hph.1.le

/-- **What a crash meets.**  In every phase the disk restores to the image of the
groups whose header reached it. -/
theorem recoverable (h : Inv A d₀ s) : Recoverable A.layout s.disk (durableImage d₀ s) := by
  have hph := h.phase
  unfold PhaseInv at hph
  split at hph
  · exact hph.2.1.recoverable
  · exact hph.disk.recoverable
  · exact hph.disk.recoverable
  · exact hph.2.1.recoverable
  · obtain ⟨-, ts, hp⟩ := hph
    exact hp.recoverable
  · exact hph.2.recoverable
  · exact hph.2.1
  · exact hph.2.1.recoverable
  · obtain ⟨-, ⟨ts, hp⟩, -⟩ := hph
    exact hp.recoverable

/-- With every group durable and no open transaction, the two images agree. -/
theorem target_eq (htxn : s.hist.txn = []) (hd : s.hist.durable = s.hist.groups.length) :
    target d₀ s = durableImage d₀ s := by
  rw [target, durableImage, htxn, hd, List.take_length]
  rfl

/-- A block whose buffer is not pinned is on disk as the cache should show it. -/
theorem disk_eq_target (h : Inv A d₀ s) (hup : s.phase.Up) {b : BlockNo} (hb : A.Home b)
    (hclean : ∀ buf, s.cache b = some buf → buf.dirty = false) :
    s.disk b = target d₀ s b := by
  have hpin : ∀ bs, Pinned s bs → b ∉ bs := by
    intro bs hp hm
    obtain ⟨buf, hc, hd⟩ := hp b hm
    rw [hclean buf hc] at hd
    exact Bool.false_ne_true hd
  have hph := h.phase
  have hnil := h.txn_nil
  unfold PhaseInv at hph
  split at hph <;> rename_i hp
  · obtain ⟨hdur, hpend, hpinned⟩ := hph
    have hnm : b ∉ s.hist.txn.map Upd.blockno :=
      fun hm => hpin _ hpinned ((h.lh_mem hp b).mpr hm)
    rw [hpend.home_eq le_rfl hb, target, applyUpds_of_notMem _ (by simpa using hnm),
      durableImage, hdur, List.take_length]
  · rw [hph.disk.home_eq le_rfl hb, hph.others b hb (hpin _ hph.pinned)]
  · rw [hph.disk.home_eq le_rfl hb, hph.others b hb (hpin _ hph.pinned)]
  · rw [target_eq (hnil (by simp [hp])) hph.1]
    exact hph.2.1.others b hb (hpin _ hph.2.2)
  · obtain ⟨hdur, ts, hpend⟩ := hph
    rw [target_eq (hnil (by simp [hp])) hdur]
    exact hpend.home_eq le_rfl hb
  · rw [target_eq (hnil (by simp [hp])) hph.1]
    exact hph.2.home_eq le_rfl hb
  all_goals exact absurd (hp ▸ hup) (by simp [Phase.Up])

end Inv

end Xv6.Log
