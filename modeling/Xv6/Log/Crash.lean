import Xv6.Log.Steps

/-!
# Crash atomicity of the redo log

After any run, any crash and any number of crashes during recovery, a completed
`recover_from_log` leaves the home blocks of a prefix of the committed groups, and
every operation is in at most one group, whole.  `Steps` gives the disk, `Ops` the
grouping.

## Main results

* `durable_mono` — a group whose header reached the disk stays in the history.
* `crash_atomicity` — the theorem about runs.
-/

namespace Xv6.Log

open RedoLog Machine

variable {A : Area} {d₀ : BlockNo → Block} {s s' : State}

/-- Both invariants hold after every run that keeps the callers' promises. -/
theorem run_inv {r : State} {acts : List Action} (hinv : Inv A d₀ s) (hhist : HistInv s)
    (hassm : Along (step A) (Assumed A) s acts) (hrun : exec (step A) s acts = some r) :
    Inv A d₀ r ∧ HistInv r :=
  exec_invariant (I := fun t => Inv A d₀ t ∧ HistInv t)
    (fun _ _ _ h ha hst => ⟨h.1.step ha hst, h.2.step h.1.toOpsInv hst⟩) ⟨hinv, hhist⟩ hassm hrun

/-- **A durable group is never lost**: it stays a prefix of the durable groups
of every later state. -/
theorem durable_mono {r : State} {acts : List Action} (hinv : Inv A d₀ s)
    (hassm : Along (step A) (Assumed A) s acts) (hrun : exec (step A) s acts = some r) :
    s.durableGroups <+: r.durableGroups :=
  (exec_invariant (I := fun t => Inv A d₀ t ∧ s.durableGroups <+: t.durableGroups)
    (fun _ _ _ h ha hst => ⟨h.1.step ha hst, h.2.trans (durableGroups_mono h.1.durable_le hst)⟩)
    ⟨hinv, List.prefix_refl _⟩ hassm hrun).2

/-- Crashes and recovery steps keep the callers' promises, trivially. -/
theorem along_recovery {rs : List Action} (hrs : ∀ a ∈ rs, a = .crash ∨ a = .recover) :
    ∀ s, Along (step A) (Assumed A) s rs := by
  induction rs with
  | nil => exact fun _ => trivial
  | cons a rs ih =>
    intro s
    refine along_cons.mpr ⟨?_, fun t _ => ih (fun b hb => hrs b (List.mem_cons_of_mem _ hb)) t⟩
    rcases hrs a List.mem_cons_self with rfl | rfl <;> intro b hb <;> simp [recording] at hb

/-- Recovery, with any number of crashes in it, keeps the durable groups. -/
theorem recovery_groups {rs : List Action} (hrs : ∀ a ∈ rs, a = .crash ∨ a = .recover)
    {t : State} (hg : s.hist.groups = s.durableGroups)
    (hrun : exec (step A) s rs = some t) :
    t.hist.groups = s.hist.groups ∧ t.hist.durable = s.hist.durable := by
  induction rs generalizing s with
  | nil =>
    cases hrun
    exact ⟨rfl, rfl⟩
  | cons a rs ih =>
    obtain ⟨u, hst, hrest⟩ := exec_cons_eq_some.mp hrun
    have hkeep : u.hist.groups = s.hist.groups ∧ u.hist.durable = s.hist.durable := by
      rcases hrs a List.mem_cons_self with rfl | rfl
      · cases hst
        exact ⟨hg.symm, rfl⟩
      · have hh := (recover_frame (of_guard hst)).hist
        exact ⟨by rw [hh], by rw [hh]⟩
    obtain ⟨h1, h2⟩ := ih (fun b hb => hrs b (List.mem_cons_of_mem _ hb))
      (by rw [State.durableGroups, hkeep.1, hkeep.2]; exact hg) hrest
    exact ⟨h1.trans hkeep.1, h2.trans hkeep.2⟩

/-- **Crash atomicity.**  Take any run from a disk `d₀` with an empty log, through a
state `r` to a state `s`; crash there, and run `recover_from_log`, crashing in it any
number of times, until it completes in `s'`.  The home blocks are those of `d₀` with a
prefix of the groups committed by `s` applied in order.  The prefix contains every
group whose header had reached the disk by `r`, or by `s`.  Each group holds all
updates of a finished operation or none, and no operation is in two groups. -/
theorem crash_atomicity (A : Area) (d₀ : BlockNo → Block) (hd : readHead (d₀ A.start) = [])
    {xs ys rs : List Action} {r s s' : State}
    (hxs : exec (step A) (boot d₀) xs = some r) (hys : exec (step A) r ys = some s)
    (hassm : Along (step A) (Assumed A) (boot d₀) (xs ++ ys))
    (hrs : ∀ a ∈ rs, a = .crash ∨ a = .recover)
    (hrec : exec (step A) s (.crash :: rs) = some s') (hdone : s'.phase = .running) :
    (∃ k, s.hist.durable ≤ k ∧ k ≤ s.hist.groups.length ∧
      r.durableGroups <+: s.hist.groups.take k ∧
      ∀ b, A.Home b → s'.disk b = applyGroups (s.hist.groups.take k) d₀ b) ∧
    (∀ g ∈ s.hist.groups, ∀ o, (∀ u ∈ g.upds, u.op ≠ o) ∨
      updatesOf o g.upds = updatesOf o s.hist.issued ∧ ∀ p, (s.procs p).op? ≠ some o) ∧
    s.hist.groups.Pairwise fun g g' => ∀ u ∈ g.upds, ∀ u' ∈ g'.upds, u.op ≠ u'.op := by
  obtain ⟨hassm₁, hassm₂⟩ := along_append.mp hassm
  obtain ⟨hr, hrh⟩ := run_inv (inv_boot hd) (HistInv.boot d₀) hassm₁ hxs
  obtain ⟨hs, hsh⟩ := run_inv hr hrh (hassm₂ r hxs) hys
  refine ⟨⟨s.hist.durable, le_rfl, hs.durable_le, ?_, ?_⟩, ?_, ?_⟩
  · exact durable_mono hr (hassm₂ r hxs) hys
  · obtain ⟨t, ht, hrest⟩ := exec_cons_eq_some.mp hrec
    cases ht
    obtain ⟨hs', -⟩ := run_inv hs.crash hsh.crash (along_recovery hrs _) hrest
    obtain ⟨hg, hn⟩ := recovery_groups hrs
      (by simp [State.durableGroups, Log.crash, List.take_take]) hrest
    have hph := hs'.phase
    rw [PhaseInv, hdone] at hph
    intro b hb
    rw [hph.2.1.home_eq (Nat.zero_le _) hb, durableImage, hg, hn]
    simp [Log.crash, List.take_take]
  · intro g hg o
    by_cases ho : o ∈ g.ops
    · refine Or.inr ⟨hsh.whole g hg o ho, fun p hp => ?_⟩
      exact hsh.fresh g hg ho (hsh.active p o hp)
    · refine Or.inl fun u hu he => ho ?_
      exact he ▸ hsh.upds_ops g hg u hu
  · refine hsh.disjoint.imp_of_mem fun {g g'} hg hg' hdis u hu u' hu' he => ?_
    exact hdis (hsh.upds_ops g hg u hu) (he ▸ hsh.upds_ops g' hg' u' hu')

/-- A disk of zeroes, whose log is empty. -/
def zeroDisk : BlockNo → Block := fun _ _ => 0

/-- Boot, then one operation that writes block 100, up to its commit point. -/
def oneOp : List Action :=
  [.recover, .recover, .recover, .beginOp 0, .bread 0 100, .modify 0 100 fun _ => 7,
    .logWrite 0 100, .logRecord 0, .brelse 0 100, .endOp 0, .commit, .commit, .commit]

/-- The crash right after the commit point, and one more during recovery. -/
def crashTwice : List Action := [.recover, .crash, .recover, .recover, .recover, .recover]

theorem crash_atomicity_oneOp :
    ∃ s s', exec (step mkfsArea) (boot zeroDisk) oneOp = some s ∧
      exec (step mkfsArea) s (.crash :: crashTwice) = some s' ∧
      s.hist.durable = 1 ∧ s'.disk 100 0 = 7 ∧
      ∃ k, 1 ≤ k ∧ ∀ b, mkfsArea.Home b →
        s'.disk b = applyGroups (s.hist.groups.take k) zeroDisk b := by
  have hrs : ∀ a ∈ crashTwice, a = .crash ∨ a = .recover := by simp [crashTwice]
  have hrun : exec (step mkfsArea) (boot zeroDisk) oneOp = some _ := rfl
  obtain ⟨⟨k, hk, -, -, hb⟩, -, -⟩ :=
    crash_atomicity mkfsArea zeroDisk rfl hrun (show exec _ _ [] = some _ from rfl)
      (by decide) hrs rfl rfl
  exact ⟨_, _, rfl, rfl, rfl, rfl, k, hk, hb⟩

/-- **Blocks are what was logged.**  In every run, crashes included, a home block that nobody has
locked reads as the updates logged so far have left it, and is so on disk unless pinned. -/
theorem reads_logged (A : Area) (d₀ : BlockNo → Block) (hd : readHead (d₀ A.start) = [])
    (xs : List Action) (hassm : Along (step A) (Assumed A) (boot d₀) xs) :
    Throughout (step A) (fun s => s.phase.Up → ∀ b, A.Home b → s.owner b = none →
      s.view b = target d₀ s b ∧
      ((∀ buf, s.cache b = some buf → buf.dirty = false) → s.disk b = s.view b)) (boot d₀) xs := by
  have hinv := throughout_invariant (fun _ _ _ h ha hst => Inv.step h ha hst) (inv_boot hd) hassm
  refine hinv.mono fun s h hup b hb howner => ?_
  have hview := h.view_home hup b hb (h.settled_of_owner howner)
  exact ⟨hview, fun hclean => (h.disk_eq_target hup hb hclean).trans hview.symm⟩

theorem reads_logged_oneOp : ∃ s, exec (step mkfsArea) (boot zeroDisk) oneOp = some s ∧
    s.view 100 = target zeroDisk s 100 :=
  ⟨_, rfl, (reads_logged mkfsArea zeroDisk rfl oneOp (by decide) oneOp _ (List.prefix_refl _) rfl
    trivial 100 (by decide) rfl).1⟩

end Xv6.Log
