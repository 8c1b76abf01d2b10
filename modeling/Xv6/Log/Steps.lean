import Xv6.Log.Invariant

/-!
# Every step of the log machine keeps the invariant

One lemma per action.  The process steps change the cache and the in-memory
header only, so they keep the disk part as it is (`PhaseInv.of_cache`); the
commit and recovery steps write one sector each and move `Pending` forward.
-/

namespace Xv6.Log

open Function RedoLog Machine

variable {A : Area} {d₀ : BlockNo → Block} {s s' : State}

/-- A step that keeps the disk, the header and the history, does not unpin a
buffer and keeps coherent buffers coherent keeps the phase's part. -/
theorem PhaseInv.of_cache (h : PhaseInv A d₀ s) (hd : s'.disk = s.disk) (hl : s'.lh = s.lh)
    (hp : s'.phase = s.phase) (hg : s'.hist.groups = s.hist.groups)
    (hn : s'.hist.durable = s.hist.durable) (ht : s'.hist.txn = s.hist.txn)
    (hv : ∀ b, s.view b = s.disk b → s'.view b = s.disk b)
    (hpin : ∀ b buf, s.cache b = some buf → buf.dirty = true →
      ∃ buf', s'.cache b = some buf' ∧ buf'.dirty = true) : PhaseInv A d₀ s' := by
  have hpinned : ∀ bs, Pinned s bs → Pinned s' bs := by
    intro bs hbs b hb
    obtain ⟨buf, hc, hdirty⟩ := hbs b hb
    exact hpin b buf hc hdirty
  have himg : durableImage d₀ s' = durableImage d₀ s := by rw [durableImage, hg, hn]; rfl
  have htgt : target d₀ s' = target d₀ s := by rw [target, hg, ht]; rfl
  have hlog : ∀ tail, Logged A d₀ s tail → Logged A d₀ s' tail := by
    intro tail hl'
    refine ⟨by rw [hn, hg]; exact hl'.durable, by rw [hd, himg]; exact hl'.disk,
      by rw [hl]; exact hl'.tail_le, ?_, ?_, by rw [hl]; exact hpinned _ hl'.pinned⟩
    · intro i hi hit
      rw [hd, htgt]
      simp only [hl]
      exact hl'.slots i (hl ▸ hi) hit
    · intro b hb hnm
      rw [htgt, himg]
      exact hl'.others b hb (hl ▸ hnm)
  unfold PhaseInv at h ⊢
  rw [hp, hg, hn, hd, hl, himg]
  split at h
  · exact ⟨h.1, h.2.1, hpinned _ h.2.2⟩
  · exact hlog _ h
  · exact hlog _ h
  · exact ⟨h.1, h.2.1, hpinned _ h.2.2⟩
  · exact h
  · exact h
  · exact ⟨h.1, h.2.1, fun b => hv b (h.2.2 b)⟩
  · exact ⟨h.1, h.2.1, fun b => hv b (h.2.2 b)⟩
  · exact ⟨h.1, h.2.1, fun b => hv b (h.2.2 b)⟩

/-! ## Process steps -/

section Procs

variable {p : Pid} {pr : Proc}

theorem held_update {owner : BlockNo → Option Pid}
    (h : ∀ q b, b ∈ (s.procs q).busy → owner b = some q) (hpr : ∀ b ∈ pr.busy, owner b = some p) :
    ∀ q b, b ∈ (update s.procs p pr q).busy → owner b = some q :=
  (forall_update_iff s.procs
    (p := fun q pr => ∀ b, b ∈ pr.busy → owner b = some q)).mpr ⟨hpr, fun q _ => h q⟩

/-- A block settled after one process changed was settled before, if the process
did not drop it from its unlogged list. -/
theorem settled_of_update {x : BlockNo}
    (hx : ∀ q, x ∉ (update s.procs p pr q).unlogged)
    (hp : x ∈ (s.procs p).unlogged → x ∈ pr.unlogged) : s.Settled x := by
  intro q hq
  by_cases hqp : q = p
  · subst hqp
    have := hx q
    rw [update_self] at this
    exact this (hp hq)
  · have := hx q
    rw [update_of_ne hqp] at this
    exact this hq

end Procs

section

variable (h : Inv A d₀ s)
include h

theorem Inv.beginOp (hup : s.phase.Up) {p : Pid} (hs : beginOp s p = some s') : Inv A d₀ s' := by
  have hops := h.toOpsInv.beginOp hup hs
  unfold Log.beginOp at hs
  split at hs
  · rename_i hg
    obtain ⟨hout, hcom, -⟩ := hg
    cases hs
    have hrun := h.running_of_not_committing hup hcom
    have hnone : ∀ x, x ∈ (s.procs p).unlogged → x ∈ (Proc.inOp s.hist.nextOp []).unlogged := by
      intro x hx
      rw [hout] at hx
      exact absurd hx List.not_mem_nil
    exact {
      toOpsInv := hops
      held := held_update h.held (by simp [Proc.busy])
      locked := h.locked
      header := h.header
      view_home := fun _ b hb hset => h.view_home hup b hb (settled_of_update hset (hnone b))
      view_area := fun b hb hset => h.view_area b hb (settled_of_update hset (hnone b))
      phase := h.phase.of_cache rfl rfl rfl rfl rfl rfl (fun _ hv => hv)
        (fun _ buf hc hd => ⟨buf, hc, hd⟩) }
  · cases hs

theorem Inv.bread {p : Pid} {b : BlockNo} (hs : bread s p b = some s') : Inv A d₀ s' := by
  have hops := h.toOpsInv.frame (bread_frame hs)
  unfold Log.bread at hs
  split at hs
  · rename_i hfree
    cases hs
    -- The buffer loaded shows what a read showed before.
    have hview : ∀ x, State.view { s with
        owner := update s.owner b (some p)
        cache := update s.cache b (some (s.bread b)) } x = s.view x := by
      intro x
      refine (State.view_update (s := s) (b := b) (by exact rfl) (by exact rfl) x).trans ?_
      rw [State.data_bread, update_eq_self]
    exact {
      toOpsInv := hops
      held := by
        intro q x hx
        have hown := h.held q x hx
        have hxb : x ≠ b := by
          rintro rfl
          rw [hfree] at hown
          cases hown
        simpa [update_of_ne hxb] using hown
      locked := by
        intro x q hx
        by_cases hxb : x = b
        · exact ⟨s.bread b, by simp [hxb]⟩
        · simp only [update_of_ne hxb] at hx ⊢
          exact h.locked x q hx
      header := h.header
      view_home := fun hup x hx hset => (hview x).trans (h.view_home hup x hx hset)
      view_area := fun x hx hset => (hview x).trans (h.view_area x hx hset)
      phase := by
        refine h.phase.of_cache rfl rfl rfl rfl rfl rfl (fun x hv => (hview x).trans hv) ?_
        intro x buf hc hd
        by_cases hxb : x = b
        · subst hxb
          exact ⟨s.bread x, by simp, by simp [State.bread, hc, hd]⟩
        · exact ⟨buf, by simpa [update_of_ne hxb] using hc, hd⟩ }
  · cases hs

theorem Inv.modify {p : Pid} {b : BlockNo} {data : Block} (hs : modify s p b data = some s') :
    Inv A d₀ s' := by
  have hops := h.toOpsInv.frame (modify_frame hs)
  unfold Log.modify at hs
  split at hs
  · rename_i op un hpr
    split at hs
    · rename_i hown
      cases hs
      have hact : s.procs p ≠ .outside := by simp [hpr]
      have hrun := h.running_of_active hact
      have hne : ∀ x, (∀ q, x ∉ (update s.procs p (.inOp op (b :: un)) q).unlogged) →
          x ≠ b := by
        rintro x hx rfl
        have := hx p
        simp [Proc.unlogged] at this
      have hkeep : ∀ x, x ∈ (s.procs p).unlogged → x ∈ (Proc.inOp op (b :: un)).unlogged := by
        intro x hx
        rw [hpr] at hx
        exact List.mem_cons_of_mem _ hx
      have hview : ∀ x, x ≠ b → State.view { s with
          cache := update s.cache b (some { s.bread b with data := data })
          procs := update s.procs p (.inOp op (b :: un)) } x = s.view x :=
        fun x hx => State.view_congr rfl (update_of_ne hx ..)
      exact {
        toOpsInv := hops
        held := by
          refine held_update h.held fun x hx => ?_
          rcases List.mem_cons.mp hx with rfl | hx
          · exact hown
          · exact h.held p x (by rw [hpr]; exact hx)
        locked := by
          intro x q hx
          by_cases hxb : x = b
          · exact ⟨{ s.bread b with data := data }, by simp [hxb]⟩
          · simp only [update_of_ne hxb]
            exact h.locked x q hx
        header := h.header
        view_home := fun hup x hx hset =>
          (hview x (hne x hset)).trans (h.view_home hup x hx (settled_of_update hset (hkeep x)))
        view_area := fun x hx hset =>
          (hview x (hne x hset)).trans (h.view_area x hx (settled_of_update hset (hkeep x)))
        phase := by
          have hph := h.phase
          simp only [PhaseInv, hrun] at hph ⊢
          obtain ⟨hdur, hpend, hpin⟩ := hph
          refine ⟨hdur, hpend, fun x hx => ?_⟩
          obtain ⟨buf, hc, hd⟩ := hpin x hx
          by_cases hxb : x = b
          · subst hxb
            exact ⟨{ s.bread x with data := data }, by simp, by simp [State.bread, hc, hd]⟩
          · exact ⟨buf, by simpa [update_of_ne hxb] using hc, hd⟩ }
    · cases hs
  all_goals cases hs

/-- A panic freezes the machine as it stands. -/
theorem Inv.panic (e : Option Panic) : Inv A d₀ { s with panicked := e } where
  toOpsInv := h.toOpsInv.frame ⟨rfl, rfl, rfl, rfl, rfl, fun _ => rfl⟩
  held := h.held
  locked := h.locked
  header := h.header
  view_home := h.view_home
  view_area := h.view_area
  phase := h.phase.of_cache rfl rfl rfl rfl rfl rfl (fun _ hv => hv)
    (fun _ buf hc hd => ⟨buf, hc, hd⟩)

theorem Inv.logWrite {p : Pid} {b : BlockNo} (hs : logWrite A s p b = some s') : Inv A d₀ s' := by
  have hops := h.toOpsInv.frame (logWrite_frame hs)
  unfold Log.logWrite at hs
  split at hs
  · rename_i op un hpr
    split at hs
    · rename_i hown
      split at hs
      · cases hs
        exact h.panic _
      split at hs
      · cases hs
        exact h.panic _
      cases hs
      have hact : s.procs p ≠ .outside := by simp [hpr]
      have hrun := h.running_of_active hact
      have hkeep : ∀ x, x ∈ (s.procs p).unlogged → x ∈ (Proc.logging op un b).unlogged := by
        intro x hx
        rwa [hpr] at hx
      exact {
        toOpsInv := hops
        held := by
          refine held_update h.held fun x hx => ?_
          rcases List.mem_cons.mp hx with rfl | hx
          · exact hown
          · exact h.held p x (by rw [hpr]; exact hx)
        locked := h.locked
        header := h.header
        view_home := fun hup x hx hset =>
          h.view_home hup x hx (settled_of_update hset (hkeep x))
        view_area := fun x hx hset => h.view_area x hx (settled_of_update hset (hkeep x))
        phase := h.phase.of_cache rfl rfl rfl rfl rfl rfl (fun _ hv => hv)
          (fun _ buf hc hd => ⟨buf, hc, hd⟩) }
    · cases hs
  all_goals cases hs

/-- Recording an update moves the target of its block to what the buffer holds. -/
theorem Inv.logRecord {p : Pid} (ha : Assumed A s (.logRecord p)) (hs : logRecord s p = some s') :
    Inv A d₀ s' := by
  have hops := h.toOpsInv.logRecord hs
  unfold Log.logRecord at hs
  split at hs
  · rename_i op un b hpr
    cases hs
    obtain ⟨hhome, hroom⟩ := ha b (by simp [recording, hpr])
    have hact : s.procs p ≠ .outside := by simp [hpr]
    have hrun := h.running_of_active hact
    have hup : s.phase.Up := by rw [hrun]; trivial
    have hdr := h.header hup
    have hkeep : ∀ x, x ≠ b → x ∈ (s.procs p).unlogged →
        x ∈ (Proc.inOp op (un.filter (· ≠ b))).unlogged := by
      intro x hxb hx
      rw [hpr] at hx
      exact List.mem_filter.mpr ⟨hx, by simpa using hxb⟩
    have hmem : ∀ x, x ≠ b → x ∈ (if b ∈ s.lh then s.lh else s.lh ++ [b]) → x ∈ s.lh := by
      intro x hxb hx
      split at hx
      · exact hx
      · simpa [hxb] using hx
    exact {
      toOpsInv := hops
      held := by
        refine held_update h.held fun x hx => h.held p x ?_
        rw [hpr]
        exact List.mem_cons_of_mem _ (List.mem_of_mem_filter hx)
      locked := by
        intro x q hx
        by_cases hxb : x = b
        · exact ⟨⟨s.view b, true⟩, by simp [hxb]⟩
        · simp only [update_of_ne hxb]
          exact h.locked x q hx
      header := fun _ => by
        dsimp only
        split
        · exact hdr
        · rename_i hb
          obtain ⟨hlog, hsz⟩ := hroom hb
          refine ⟨?_, ?_, ?_⟩
          · intro x hx
            rcases List.mem_append.mp hx with hx | hx
            · exact hdr.home x hx
            · rw [List.mem_singleton.mp hx]
              exact hhome
          · rw [List.length_append]
            exact hsz
          · rw [List.length_append]
            exact hlog
      view_home := by
        intro _ x hx hset
        refine (State.view_update (s := s) (b := b) (by exact rfl) (by exact rfl) x).trans ?_
        by_cases hxb : x = b
        · simp [target, hxb]
        · have hview := h.view_home hup x hx (settled_of_update hset (hkeep x hxb))
          simpa [target, update_of_ne hxb] using hview
      view_area := by
        intro x hx hset
        have hxb : x ≠ b := by
          rintro rfl
          exact hx hhome
        refine (State.view_update (s := s) (b := b) (by exact rfl) (by exact rfl) x).trans ?_
        rw [update_of_ne hxb]
        exact h.view_area x hx (settled_of_update hset (hkeep x hxb))
      phase := by
        have hph := h.phase
        simp only [PhaseInv, hrun] at hph ⊢
        obtain ⟨hdur, hpend, hpin⟩ := hph
        refine ⟨hdur, hpend, fun x hx => ?_⟩
        by_cases hxb : x = b
        · exact ⟨⟨s.view b, true⟩, by simp [hxb], rfl⟩
        · obtain ⟨buf, hc, hd⟩ := hpin x (hmem x hxb hx)
          exact ⟨buf, by simpa [update_of_ne hxb] using hc, hd⟩ }
  all_goals cases hs

theorem Inv.brelse {p : Pid} {b : BlockNo} (hs : brelse s p b = some s') : Inv A d₀ s' := by
  have hops := h.toOpsInv.frame (brelse_frame hs)
  unfold Log.brelse at hs
  split at hs
  · rename_i hg
    obtain ⟨hown, hbusy⟩ := hg
    cases hs
    exact {
      toOpsInv := hops
      held := by
        intro q x hx
        have hq := h.held q x hx
        have hxb : x ≠ b := by
          rintro rfl
          rw [hown, Option.some.injEq] at hq
          exact hbusy (hq ▸ hx)
        simpa [update_of_ne hxb] using hq
      locked := by
        intro x q hx
        by_cases hxb : x = b
        · simp [hxb] at hx
        · exact h.locked x q (by simpa [update_of_ne hxb] using hx)
      header := h.header
      view_home := h.view_home
      view_area := h.view_area
      phase := h.phase.of_cache rfl rfl rfl rfl rfl rfl (fun _ hv => hv)
        (fun _ buf hc hd => ⟨buf, hc, hd⟩) }
  · cases hs

/-- Recycling a clean buffer shows the disk's copy, which is the same. -/
theorem Inv.evict (hup : s.phase.Up) {b : BlockNo} (hs : evict s b = some s') : Inv A d₀ s' := by
  have hops := h.toOpsInv.frame (evict_frame hs)
  unfold Log.evict at hs
  split at hs
  · rename_i buf hc
    split at hs
    · rename_i hg
      obtain ⟨hclean, hown⟩ := hg
      cases hs
      have hdisk : s.view b = s.disk b := by
        have hset := h.settled_of_owner hown
        by_cases hb : A.Home b
        · rw [h.view_home hup b hb hset, h.disk_eq_target hup hb]
          intro buf' hc'
          rw [hc, Option.some.injEq] at hc'
          exact hc' ▸ hclean
        · exact h.view_area b hb hset
      have hview : ∀ x, State.view { s with cache := update s.cache b none } x
          = s.view x := by
        intro x
        by_cases hx : x = b
        · subst hx
          rw [hdisk]
          simp [State.view]
        · exact State.view_congr rfl (update_of_ne hx ..)
      exact {
        toOpsInv := hops
        held := h.held
        locked := by
          intro x q hx
          have hxb : x ≠ b := by
            rintro rfl
            rw [hown] at hx
            cases hx
          simp only [update_of_ne hxb]
          exact h.locked x q hx
        header := h.header
        view_home := fun hup x hx hset => (hview x).trans (h.view_home hup x hx hset)
        view_area := fun x hx hset => (hview x).trans (h.view_area x hx hset)
        phase := by
          refine h.phase.of_cache rfl rfl rfl rfl rfl rfl (fun x hv => (hview x).trans hv) ?_
          intro x buf' hc' hd
          have hxb : x ≠ b := by
            rintro rfl
            rw [hc, Option.some.injEq] at hc'
            rw [← hc', hclean] at hd
            exact Bool.false_ne_true hd
          exact ⟨buf', by simpa [update_of_ne hxb] using hc', hd⟩ }
    · cases hs
  · cases hs

end

theorem applyGroups_concat (gs : List Group) (g : Group) (d : BlockNo → Block) :
    applyGroups (gs ++ [g]) d =
      applyUpds (g.upds.map fun u => (u.blockno, u.data)) (applyGroups gs d) := by
  simp [applyGroups, applyUpds_append]

theorem Inv.endOp (h : Inv A d₀ s) {p : Pid} (hs : endOp s p = some s') : Inv A d₀ s' := by
  have hops := h.toOpsInv.endOp hs
  unfold Log.endOp at hs
  split at hs
  case h_2 => cases hs
  rename_i op hpr
  have hact : s.procs p ≠ .outside := by simp [hpr]
  have hrun := h.running_of_active hact
  have hup : s.phase.Up := by rw [hrun]; trivial
  have hph := h.phase
  simp only [PhaseInv, hrun] at hph
  obtain ⟨hdur, hpend, hpin⟩ := hph
  have hlh := h.lh_mem hrun
  have hheld : ∀ q b, b ∈ (update s.procs p .outside q).busy → s.owner b = some q :=
    held_update h.held (by simp [Proc.busy])
  have hkeep : ∀ x, x ∈ (s.procs p).unlogged → x ∈ Proc.outside.unlogged := by
    intro x hx
    rwa [hpr] at hx
  simp only [h.not_committing hrun, Bool.false_eq_true, if_false] at hs
  split at hs
  · split at hs
    · -- An empty header: `commit()` returns at once.
      rename_i hnil
      have htxn : s.hist.txn = [] := by
        rw [List.eq_nil_iff_forall_not_mem]
        intro u hu
        have := (hlh u.blockno).mpr (List.mem_map_of_mem hu)
        rw [hnil] at this
        exact absurd this List.not_mem_nil
      cases hs
      exact {
        toOpsInv := hops
        held := hheld
        locked := h.locked
        header := fun _ => h.header hup
        view_home := by
          intro _ x hx hset
          refine (h.view_home hup x hx (settled_of_update hset (hkeep x))).trans ?_
          rw [target, htxn]
          rfl
        view_area := fun x hx hset => h.view_area x hx (settled_of_update hset (hkeep x))
        phase := ⟨hdur, hpend⟩ }
    · cases hs
      have htarget : applyGroups (s.hist.groups ++ [Group.mk s.hist.members s.hist.txn]) d₀ =
          target d₀ s := by
        rw [applyGroups_concat]
        rfl
      have himage : applyGroups ((s.hist.groups ++ [Group.mk s.hist.members s.hist.txn]).take
          s.hist.durable) d₀ = durableImage d₀ s := by
        rw [List.take_append_of_le_length hdur.le]
        rfl
      exact {
        toOpsInv := hops
        held := hheld
        locked := h.locked
        header := fun _ => h.header hup
        view_home := by
          intro _ x hx hset
          refine (h.view_home hup x hx (settled_of_update hset (hkeep x))).trans ?_
          rw [← htarget]
          rfl
        view_area := fun x hx hset => h.view_area x hx (settled_of_update hset (hkeep x))
        phase := {
          durable := by simp [hdur]
          disk := by
            rw [durableImage, himage]
            exact hpend
          tail_le := Nat.zero_le _
          slots := fun i _ hi => absurd hi (Nat.not_lt_zero i)
          others := by
            intro b _ hb
            have hnm : b ∉ s.hist.txn.map Upd.blockno := fun hm => hb ((hlh b).mpr hm)
            rw [durableImage, himage, target, List.map_nil, applyUpds_nil, htarget, target,
              applyUpds_of_notMem _ (by simpa using hnm), durableImage, hdur, List.take_length]
          pinned := hpin } }
  · cases hs
    exact {
      toOpsInv := hops
      held := hheld
      locked := h.locked
      header := h.header
      view_home := fun hup x hx hset =>
        h.view_home hup x hx (settled_of_update hset (hkeep x))
      view_area := fun x hx hset => h.view_area x hx (settled_of_update hset (hkeep x))
      phase := h.phase.of_cache rfl rfl rfl rfl rfl rfl (fun _ hv => hv)
        (fun _ buf hc hd => ⟨buf, hc, hd⟩) }

/-! ## Commit and recovery steps -/

/-- `bwrite` drops no buffer. -/
theorem locked_bwrite (h : Inv A d₀ s) (b : BlockNo) (v : Block) (x : BlockNo) (q : Pid)
    (hx : s.owner x = some q) : ∃ buf, (s.bwrite b v).cache x = some buf := by
  by_cases hxb : x = b
  · exact ⟨⟨v, false⟩, by simp [State.bwrite, hxb]⟩
  · simpa [State.bwrite, update_of_ne hxb] using h.locked x q hx

/-- `bwrite` of another block keeps a block pinned. -/
theorem pinned_bwrite {bs cs : List BlockNo} (h : Pinned s bs) {b : BlockNo} (v : Block)
    (hsub : ∀ x ∈ cs, x ∈ bs ∧ x ≠ b) : Pinned (s.bwrite b v) cs := by
  intro x hx
  obtain ⟨hxb, hne⟩ := hsub x hx
  obtain ⟨buf, hc, hd⟩ := h x hxb
  exact ⟨buf, by simpa [State.bwrite, update_of_ne hne] using hc, hd⟩

/-- A sector write keeps coherent buffers coherent. -/
theorem view_bwrite_of_disk {x : BlockNo} (b : BlockNo) (v : Block) (h : s.view x = s.disk x) :
    (s.bwrite b v).view x = (s.bwrite b v).disk x := by
  rw [State.view_bwrite]
  by_cases hx : x = b
  · simp [State.bwrite, hx]
  · simp [State.bwrite, update_of_ne hx, h]

section

variable (h : Inv A d₀ s)
include h

/-- Reading a log block gives what is on disk. -/
theorem view_slot (hne : s.phase ≠ .running) {i : ℕ} (hi : i + 1 < A.size) :
    s.view (A.start + i + 1) = s.disk (A.start + i + 1) :=
  h.view_area _ (A.slot_not_home hi) (State.settled_of_outside (h.quiet hne) _)

/-- One block copied to the log. -/
theorem Inv.writeLogAt {tail : ℕ} (hph : s.phase = .commit (.writeLog tail))
    (ht : tail < s.lh.length) :
    Inv A d₀ { Log.writeLogAt A s tail with phase := .commit (.writeLog (tail + 1)) } := by
  have hops := h.toOpsInv.commit (A := A) (by simp only [Log.commit, hph, if_pos ht]; rfl)
  have hne : s.phase ≠ .running := by simp [hph]
  have hup : s.phase.Up := by rw [hph]; trivial
  have hdr := h.header hup
  have hlog : Logged A d₀ s tail := by
    have := h.phase
    rwa [PhaseInv, hph] at this
  have hslot : ¬ A.Home (A.start + tail + 1) := A.slot_not_home (by have := hdr.fits; omega)
  have hget : s.lh.getD tail 0 = s.lh[tail] := by simp [ht]
  have hfrom : s.view s.lh[tail] = target d₀ s s.lh[tail] :=
    h.view_home hup _ (hdr.home _ (List.getElem_mem ht))
      (State.settled_of_outside (h.quiet hne) _)
  exact {
    toOpsInv := hops
    held := h.held
    locked := locked_bwrite h _ _
    header := fun _ => hdr
    view_home := by
      intro _ x hx hset
      have hxs : x ≠ A.start + tail + 1 := by
        rintro rfl
        exact hslot hx
      refine (State.view_bwrite s _ _ x).trans ?_
      rw [update_of_ne hxs]
      exact h.view_home hup x hx hset
    view_area := fun x hx hset => view_bwrite_of_disk _ _ (h.view_area x hx hset)
    phase := {
      durable := hlog.durable
      disk := hlog.disk.write_slot (i := tail) _ hslot
      tail_le := ht
      slots := by
        intro i hi hit
        change i < s.lh.length at hi
        change update s.disk (A.start + tail + 1) _ (A.start + i + 1) = target d₀ s s.lh[i]
        by_cases he : i = tail
        · subst he
          rw [update_self, hget, hfrom]
        · have hne' : A.start + i + 1 ≠ A.start + tail + 1 := by omega
          rw [update_of_ne hne']
          exact hlog.slots i hi (by omega)
      others := hlog.others
      pinned := pinned_bwrite hlog.pinned _ fun x hx => ⟨hx, by
        rintro rfl
        exact hslot (hdr.home _ hx)⟩ } }

/-- **The commit point**: the header write makes the group durable. -/
theorem Inv.writeHeadBlock (hph : s.phase = .commit .writeHead) :
    Inv A d₀ { Log.writeHeadBlock A s with
      phase := .commit (.install 0)
      hist := { s.hist with durable := s.hist.durable + 1 } } := by
  have hops := h.toOpsInv.commit (A := A) (by simp only [Log.commit, hph]; rfl)
  have hne : s.phase ≠ .running := by simp [hph]
  have hup : s.phase.Up := by rw [hph]; trivial
  have hdr := h.header hup
  have hlog : Logged A d₀ s s.lh.length := by
    have := h.phase
    rwa [PhaseInv, hph] at this
  have hlen : s.lh.length < 128 := lt_of_le_of_lt hdr.fits_head (by decide)
  have himage : applyGroups (s.hist.groups.take (s.hist.durable + 1)) d₀ = target d₀ s := by
    rw [target, h.txn_nil hne, hlog.durable, List.take_length]
    rfl
  have hstart : ¬ A.Home A.start := A.layout.head_not_home
  exact {
    toOpsInv := hops
    held := h.held
    locked := locked_bwrite h _ _
    header := fun _ => hdr
    view_home := by
      intro _ x hx hset
      have hxs : x ≠ A.start := by
        rintro rfl
        exact hstart hx
      refine (State.view_bwrite s _ _ x).trans ?_
      rw [update_of_ne hxs]
      exact h.view_home hup x hx hset
    view_area := fun x hx hset => view_bwrite_of_disk _ _ (h.view_area x hx hset)
    phase := by
      refine ⟨hlog.durable, ?_, ?_⟩
      · rw [durableImage, himage]
        refine hlog.disk.commit (readHead_writeHead _ hlen) hdr.home ?_ ?_ hlog.others
        · rintro b hb i hi rfl
          change i < s.lh.length at hi
          exact A.slot_not_home (i := i) (by have := hdr.fits; omega) hb
        · intro i hi
          exact hlog.slots i hi hi
      · refine pinned_bwrite hlog.pinned _ fun x hx => ?_
        have hx' : x ∈ s.lh := List.mem_of_mem_drop hx
        refine ⟨hx', ?_⟩
        rintro rfl
        exact hstart (hdr.home _ hx') }

/-- One block of the committed group copied home. -/
theorem Inv.installAt {tail : ℕ} (hph : s.phase = .commit (.install tail)) (ht : tail < s.lh.length)
    :
    Inv A d₀ { Log.installAt A s tail with phase := .commit (.install (tail + 1)) } := by
  have hops := h.toOpsInv.commit (A := A) (by simp only [Log.commit, hph, if_pos ht]; rfl)
  have hne : s.phase ≠ .running := by simp [hph]
  have hup : s.phase.Up := by rw [hph]; trivial
  have hdr := h.header hup
  have hphase := h.phase
  rw [PhaseInv, hph] at hphase
  obtain ⟨hdur, hpend, hpin⟩ := hphase
  have hget : s.lh.getD tail 0 = s.lh[tail] := by simp [ht]
  have hhome : A.Home s.lh[tail] := hdr.home _ (List.getElem_mem ht)
  have hread : s.view (A.start + tail + 1) = s.disk (A.start + tail + 1) :=
    view_slot h hne (by have := hdr.fits; omega)
  have hslot : s.disk (A.start + tail + 1) = durableImage d₀ s s.lh[tail] := hpend.slots tail ht
  exact {
    toOpsInv := hops
    held := h.held
    locked := locked_bwrite h _ _
    header := fun _ => hdr
    view_home := by
      intro _ x hx hset
      refine (State.view_bwrite s _ _ x).trans ?_
      rw [hget]
      by_cases hxt : x = s.lh[tail]
      · rw [hxt, update_self, hread, hslot]
        exact congrFun (Inv.target_eq (h.txn_nil hne) hdur).symm _
      · rw [update_of_ne hxt]
        exact h.view_home hup x hx hset
    view_area := fun x hx hset => view_bwrite_of_disk _ _ (h.view_area x hx hset)
    phase := by
      refine ⟨hdur, ?_, ?_⟩
      · have := hpend.install ht
        change Pending A.layout s.lh (update s.disk (s.lh.getD tail 0) _) _ _
        rw [hget, hread]
        exact this
      · refine pinned_bwrite hpin _ fun x hx => ?_
        rw [hget]
        have hcons : s.lh.drop tail = s.lh[tail] :: s.lh.drop (tail + 1) :=
          List.drop_eq_getElem_cons ht
        have hnodup : (s.lh.drop tail).Nodup := (h.lh_nodup hup).sublist (List.drop_sublist _ _)
        rw [hcons, List.nodup_cons] at hnodup
        refine ⟨hcons ▸ List.mem_cons_of_mem _ hx, ?_⟩
        rintro rfl
        exact hnodup.1 hx }

/-- The header is cleared once every block is home. -/
theorem Inv.clearHead (hph : s.phase = .commit .clearHead) :
    Inv A d₀ { Log.writeHeadBlock A s with phase := .commit .done } := by
  have hops := h.toOpsInv.commit (A := A) (by simp only [Log.commit, hph]; rfl)
  have hne : s.phase ≠ .running := by simp [hph]
  have hup : s.phase.Up := by rw [hph]; trivial
  have hphase := h.phase
  rw [PhaseInv, hph] at hphase
  obtain ⟨hdur, ts, hpend⟩ := hphase
  exact {
    toOpsInv := hops
    held := h.held
    locked := locked_bwrite h _ _
    header := fun _ => h.header hup
    view_home := by
      intro _ x hx hset
      have hxs : x ≠ A.start := Layout.ne_head (L := A.layout) hx
      refine (State.view_bwrite s _ _ x).trans ?_
      rw [update_of_ne hxs]
      exact h.view_home hup x hx hset
    view_area := fun x hx hset => view_bwrite_of_disk _ _ (h.view_area x hx hset)
    phase := by
      refine ⟨hdur, hpend.clear le_rfl ?_⟩
      rw [h.lh_cleared (by rw [hph]; trivial)]
      exact readHead_writeHead _ (by simp) }

theorem Inv.commit (hs : commit A s = some s') : Inv A d₀ s' := by
  have hops := h.toOpsInv.commit hs
  have hphase := h.phase
  unfold Log.commit at hs
  unfold PhaseInv at hphase
  split at hs
  · rename_i tail hph
    rw [hph] at hphase
    split at hs <;> rename_i ht <;> cases hs
    · exact h.writeLogAt hph ht
    · have hle : tail = s.lh.length := le_antisymm hphase.tail_le (by omega)
      subst hle
      have hne : s.phase ≠ .running := by simp [hph]
      exact {
        toOpsInv := hops
        held := h.held
        locked := h.locked
        header := fun _ => h.header (by rw [hph]; trivial)
        view_home := fun _ => h.view_home (by rw [hph]; trivial)
        view_area := h.view_area
        phase := ⟨hphase.durable, hphase.disk, hphase.tail_le, hphase.slots, hphase.others,
          hphase.pinned⟩ }
  · rename_i hph
    cases hs
    exact h.writeHeadBlock hph
  · rename_i tail hph
    rw [hph] at hphase
    split at hs <;> rename_i ht <;> cases hs
    · exact h.installAt hph ht
    · have hne : s.phase ≠ .running := by simp [hph]
      have hup : s.phase.Up := by rw [hph]; trivial
      exact {
        toOpsInv := hops
        held := h.held
        locked := h.locked
        header := fun _ => ⟨by simp, A.size_pos, Nat.zero_le _⟩
        view_home := fun _ => h.view_home hup
        view_area := h.view_area
        phase := ⟨hphase.1, s.lh, hphase.2.1.header, hphase.2.1.targets,
          hphase.2.1.off_slots, hphase.2.1.slots, fun b hb _ => hphase.2.1.home_eq (by omega) hb⟩ }
  · rename_i hph
    cases hs
    exact h.clearHead hph
  · cases hs

theorem Inv.endCommit (hs : endCommit s = some s') : Inv A d₀ s' := by
  have hops := h.toOpsInv.endCommit hs
  unfold Log.endCommit at hs
  split at hs
  · rename_i hph
    cases hs
    have hne : s.phase ≠ .running := by simp [hph]
    have hup : s.phase.Up := by rw [hph]; trivial
    have hphase := h.phase
    rw [PhaseInv, hph] at hphase
    obtain ⟨hdur, hpend⟩ := hphase
    exact {
      toOpsInv := hops
      held := h.held
      locked := h.locked
      header := fun _ => h.header hup
      view_home := fun _ => h.view_home hup
      view_area := h.view_area
      phase := by
        refine ⟨hdur, hpend, ?_⟩
        rw [h.lh_cleared (by rw [hph]; trivial)]
        exact fun b hb => absurd hb List.not_mem_nil }
  · cases hs

end

/-- A machine that has just lost its memory, on a disk that restores. -/
theorem inv_cold (hops : OpsInv s) (hd : Recoverable A.layout s.disk (durableImage d₀ s))
    (hdur : s.hist.durable = s.hist.groups.length) (hph : s.phase = .recover .readHead)
    (hcache : ∀ b, s.cache b = none) (hown : ∀ b, s.owner b = none) : Inv A d₀ s where
  toOpsInv := hops
  held p b hb := by
    rw [hops.quiet (by simp [hph]) p] at hb
    exact absurd hb List.not_mem_nil
  locked b p hb := by
    rw [hown b] at hb
    cases hb
  header hup := absurd (hph ▸ hup) (by simp [Phase.Up])
  view_home hup := absurd (hph ▸ hup) (by simp [Phase.Up])
  view_area b _ _ := by simp [State.view, hcache b]
  phase := by
    rw [PhaseInv, hph]
    exact ⟨hdur, hd, fun b => by simp [State.view, hcache b]⟩

theorem Inv.crash (h : Inv A d₀ s) : Inv A d₀ (crash s) := by
  have hle := h.durable_le
  refine inv_cold (OpsInv.crash s) ?_ ?_ rfl (fun _ => rfl) fun _ => rfl
  · have := h.recoverable
    simpa [durableImage, Log.crash, List.take_take] using this
  · simp [Log.crash, hle]

theorem Inv.recover (h : Inv A d₀ s) (hs : recover A s = some s') : Inv A d₀ s' := by
  have hops := h.toOpsInv.recover hs
  have hphase := h.phase
  unfold Log.recover at hs
  unfold PhaseInv at hphase
  split at hs
  · rename_i hph
    cases hs
    rw [hph] at hphase
    obtain ⟨hdur, ⟨ts, hpend⟩, hview⟩ := hphase
    have hne : s.phase ≠ .running := by simp [hph]
    have hread : readHead (s.view A.start) = ts := by
      rw [hview]
      exact hpend.header
    exact {
      toOpsInv := hops
      held := h.held
      locked := h.locked
      header := fun hup => hup.elim
      view_home := fun hup => hup.elim
      view_area := h.view_area
      phase := ⟨hdur, by rw [hread]; exact hpend, hview⟩ }
  · rename_i tail hph
    rw [hph] at hphase
    obtain ⟨hdur, hpend, hview⟩ := hphase
    have hne : s.phase ≠ .running := by simp [hph]
    split at hs <;> rename_i ht <;> cases hs
    · have hget : s.lh.getD tail 0 = s.lh[tail] := by simp [ht]
      exact {
        toOpsInv := hops
        held := h.held
        locked := locked_bwrite h _ _
        header := fun hup => hup.elim
        view_home := fun hup => hup.elim
        view_area := fun x _ _ => view_bwrite_of_disk _ _ (hview x)
        phase := by
          refine ⟨hdur, ?_, fun x => view_bwrite_of_disk _ _ (hview x)⟩
          have := hpend.install ht
          change Pending A.layout s.lh (update s.disk (s.lh.getD tail 0) _) _ _
          rw [hget, hview]
          exact this }
    · exact {
        toOpsInv := hops
        held := h.held
        locked := h.locked
        header := fun hup => hup.elim
        view_home := fun hup => hup.elim
        view_area := h.view_area
        phase := ⟨hdur, ⟨s.lh, hpend.header, hpend.targets, hpend.off_slots, hpend.slots,
          fun b hb _ => hpend.home_eq (by omega) hb⟩, hview⟩ }
  · rename_i hph
    cases hs
    rw [hph] at hphase
    obtain ⟨hdur, ⟨ts, hpend⟩, hview⟩ := hphase
    have hnil : s.lh = [] := h.lh_cleared (by rw [hph]; trivial)
    have hne : s.phase ≠ .running := by simp [hph]
    have hclear : Pending A.layout [] (Log.writeHeadBlock A s).disk (durableImage d₀ s) 0 := by
      refine hpend.clear le_rfl ?_
      rw [hnil]
      exact readHead_writeHead _ (by simp)
    have hview' : ∀ x, (Log.writeHeadBlock A s).view x = (Log.writeHeadBlock A s).disk x :=
      fun x => view_bwrite_of_disk _ _ (hview x)
    exact {
      toOpsInv := hops
      held := h.held
      locked := locked_bwrite h _ _
      header := fun _ => by
        change HeaderOk A s.lh
        rw [hnil]
        exact ⟨by simp, A.size_pos, Nat.zero_le _⟩
      view_home := by
        intro _ x hx _
        refine (hview' x).trans ((hclear.home_eq (Nat.zero_le _) hx).trans ?_)
        exact congrFun (Inv.target_eq (h.txn_nil hne) hdur).symm x
      view_area := fun x _ _ => hview' x
      phase := by
        refine ⟨hdur, hclear, ?_⟩
        intro b hb
        change b ∈ s.lh at hb
        rw [hnil] at hb
        exact absurd hb List.not_mem_nil }
  · cases hs

/-! ## One step, and every run -/

/-- **Every step keeps the invariant**, if logged blocks lie outside the log area
and the log has room for them. -/
theorem Inv.step {a : Action} (h : Inv A d₀ s) (ha : Assumed A s a)
    (hs : step A s a = some s') : Inv A d₀ s' := by
  cases a with
  | crash =>
    cases hs
    exact h.crash
  | beginOp p =>
    obtain ⟨hl, hs⟩ := Option.ite_none_right_eq_some.mp hs
    exact h.beginOp (State.up_of_live hl) hs
  | bread p b => exact h.bread (of_guard hs)
  | modify p b data => exact h.modify (of_guard hs)
  | logWrite p b => exact h.logWrite (of_guard hs)
  | logRecord p => exact h.logRecord ha (of_guard hs)
  | brelse p b => exact h.brelse (of_guard hs)
  | endOp p => exact h.endOp (of_guard hs)
  | evict b =>
    obtain ⟨hl, hs⟩ := Option.ite_none_right_eq_some.mp hs
    exact h.evict (State.up_of_live hl) hs
  | commit => exact h.commit (of_guard hs)
  | endCommit => exact h.endCommit (of_guard hs)
  | recover => exact h.recover (of_guard hs)

/-- The machine before its first recovery, on a disk with an empty log. -/
theorem inv_boot (hd : readHead (d₀ A.start) = []) : Inv A d₀ (boot d₀) :=
  inv_cold (OpsInv.boot d₀) (pending_nil (t := 0) hd fun _ _ => rfl).recoverable rfl rfl
    (fun _ => rfl) fun _ => rfl

end Xv6.Log
