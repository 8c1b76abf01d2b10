import Xv6.Vm.Exclusive

/-!
# Density in every run

Every live process is dense, and `copyuvm` and `loaduvm` find their pages, as long as no
process calls `sbrk` to give all of its memory back.  `deallocuvm` returns the new size 0
then, `growproc` takes it for a failure and leaves `proc->sz` as it was, above pages that
are gone; the next `fork` panics.

## Main definitions

* `Sound` — every live process is dense, and no call of one meets a panic of `copyuvm` or
  `loaduvm`.
* `NoWipe` — a step that does not shrink a process to size 0.

## Main results

* `dense_iff_noWipe` — a run is sound throughout exactly when it has no such step.
-/

namespace Xv6.Vm

open Prog Outcome Machine

/-- Every live process has the pages below its size, and no others. -/
def DenseAll (s : Sys) : Prop := ∀ i sp, s.space i = some sp → Dense sp.pgdir (pgroundup sp.sz)

/-- Every live process is dense and in the user's half, and its calls do not meet the panics
of `copyuvm` and `loaduvm`. -/
def Sound (env : Env) (s : Sys) : Prop :=
  ∀ i sp, s.space i = some sp → Dense sp.pgdir (pgroundup sp.sz) ∧ sp.sz < KERNBASE ∧
    ∀ c e, call env s i sp c = .error e →
      e ∉ [Fault.copyuvmNoPte, .copyuvmNotPresent, .loaduvmAligned, .loaduvmNoPte]

/-- `sbrk(n)` leaves a process of size `sz` nothing. -/
def Wipes (sz : ℕ) : Call → Prop
  | .sbrk n => n.toInt < 0 ∧ (sz : ℤ) + n.toInt = 0
  | _ => False

/-- The process that makes the call keeps some memory. -/
def NoWipe (s : Sys) (a : Fin 64 × Call) : Prop :=
  ∀ sp, s.space a.1 = some sp → ¬ Wipes sp.sz a.2

theorem FileFault.noHole {e : Fault} (h : FileFault e) : NoHole e := by
  revert h
  cases e <;> decide

variable {env : Env} {s s' : Sys} {i j : Fin 64} {sp : Space}

theorem space_eq_some : s.space i = some sp ↔ (s.proc i).life = .live sp := by
  refine ⟨life_of_space, fun h => ?_⟩
  rw [Sys.space, h]

/-- Only the states of processes matter. -/
theorem DenseAll.congr (h : DenseAll s) (hlife : ∀ i, (s'.proc i).life = (s.proc i).life) :
    DenseAll s' := by
  intro i sp hsp
  rw [space_eq_some, hlife i, ← space_eq_some] at hsp
  exact h i sp hsp

theorem Shrinks.denseAll (h : Shrinks s s') (hd : DenseAll s) : DenseAll s' := hd.congr h.life

/-- One process takes another form. -/
theorem DenseAll.setProc (h : DenseAll s) (x : Proc) (m : Kmem)
    (hx : ∀ sp, x.life = .live sp → Dense sp.pgdir (pgroundup sp.sz)) :
    DenseAll { s.setProc i x with kmem := m } := by
  intro j sp hsp
  rw [space_eq_some] at hsp
  by_cases hj : j = i
  · subst hj
    simp only [Sys.setProc, Function.update_self] at hsp
    exact hx sp hsp
  · simp only [Sys.setProc, Function.update_of_ne hj] at hsp
    exact h j sp (space_eq_some.mpr hsp)

theorem DenseAll.setKmem (h : DenseAll s) (m : Kmem) : DenseAll { s with kmem := m } :=
  h.congr fun _ => rfl

/-! ## The calls -/

theorem fork_dense (hs : Owned env s) (h : DenseAll s) (hsp : s.space i = some sp) :
    Sat NoHole (fun r => DenseAll r.2) (fork env s i sp) := by
  have hsz := hs.small i sp (by rw [life_of_space hsp]; rfl)
  unfold fork
  rw [sat_bind]
  refine (allocproc_spec s).imp fun r hr => ?_
  obtain ⟨np, s₁⟩ := r
  obtain ⟨m, rfl, -⟩ := hr
  cases np with
  | none => exact h.setKmem m
  | some np =>
    obtain ⟨j, kstack⟩ := np
    dsimp only
    rw [sat_bind, sat_mem]
    refine (copyuvm_dense env.layout (h i sp hsp) hsz.2.le).mono fun o m₂ h₂ => ?_
    cases o with
    | none =>
      dsimp only
      rw [sat_bind, sat_mem]
      exact wp_kfree (.inl ⟨by decide, by decide⟩) (h.setKmem _)
    | some d =>
      dsimp only
      rw [sat_bind]
      have hnew : DenseAll
          { s.setProc j ⟨.live ⟨kstack, d, sp.sz⟩, some i, (s.proc j).ofile⟩ with
          kmem := m₂ } := by
        refine h.setProc _ m₂ fun sp' hsp' => ?_
        cases hsp'
        exact h₂ d rfl
      exact (dupFiles_shrinks _ i j).mono (fun _ => FileFault.noHole)
        fun s₃ h₃ => h₃.denseAll hnew

theorem sysExec_dense (h : DenseAll s) (image : Option Image) (argv : Argv) :
    Sat NoHole (fun r => DenseAll r.2) (sysExec env s i sp image argv) := by
  unfold sysExec
  rw [sat_bind, sat_mem]
  refine (exec_dense env.layout sp.pgdir image argv).mono fun o m ho => ?_
  cases o with
  | none => exact h.setKmem m
  | some r =>
    refine h.setProc _ m fun sp' hsp' => ?_
    cases hsp'
    exact (ho r rfl).1

/-- `sbrk` keeps density exactly when it does not wipe. -/
theorem sysSbrk_dense (hs : Owned env s) (h : DenseAll s) (hsp : s.space i = some sp) (n : Int32) :
    Sat NoHole (fun r => DenseAll r.2 ↔ ¬ Wipes sp.sz (.sbrk n))
      (sysSbrk env s i sp n.toInt) := by
  have hsz := hs.small i sp (by rw [life_of_space hsp]; rfl)
  have hn := n.le_toInt
  unfold sysSbrk
  rw [sat_bind, sat_mem]
  refine (growproc_dense hsz.2 hsz.1 hn (h i sp hsp)).mono fun r m hr => ?_
  by_cases hwipe : Wipes sp.sz (.sbrk n)
  · -- The size is still there, and its first page is not.
    rw [if_pos (show n.toInt < 0 ∧ _ from hwipe)] at hr
    refine iff_of_false (fun hd => ?_) (not_not.mpr hwipe)
    have hself := hd i ⟨sp.kstack, r.2.1, r.2.2⟩ (space_eq_some.mpr (by simp [Sys.setProc]))
    have hlow : 0 < KERNPAGE := by decide
    have hfirst : 0 < pgroundup sp.sz := by
      simp only [pgroundup, PGSIZE]
      omega
    have hsome := (hself 0 hlow).mpr (by rw [hr.1]; exact hfirst)
    exact absurd ((hr.2 0 hlow).mp hsome) (Nat.not_lt_zero 0)
  · rw [if_neg (show ¬ (n.toInt < 0 ∧ _) from hwipe)] at hr
    refine iff_of_true (h.setProc _ m fun sp' hsp' => ?_) hwipe
    cases hsp'
    exact hr.1

theorem exit_dense (hs : Owned env s) (h : DenseAll s) :
    Sat NoHole (fun r => DenseAll r.2) (exit env s i sp) := by
  unfold exit
  split
  · exact (sat_error _).mpr (by decide)
  rw [sat_bind]
  refine (closeFiles_shrinks hs i).mono (fun _ => FileFault.noHole) fun s₁ h₁ => ?_
  have h₂ := (h₁.trans (reparent_shrinks s₁ i)).denseAll h
  exact h₂.setProc _ _ fun sp' hsp' => by cases hsp'

theorem wait_dense (h : DenseAll s) : Sat NoHole (fun r => DenseAll r.2) (wait env s i) := by
  unfold wait
  split
  · exact h
  rename_i j sp' _
  rw [sat_bind, sat_mem]
  refine wp_kfree (.inl ⟨by decide, by decide⟩) ?_
  dsimp only
  rw [sat_bind, sat_mem]
  refine (freevm_noHole sp'.pgdir).mono fun _ m _ => ?_
  exact h.setProc _ m fun sp'' hsp'' => by cases hsp''

/-- **A call** keeps density exactly when it does not wipe. -/
theorem call_dense (hs : Owned env s) (h : DenseAll s) (hsp : s.space i = some sp) (c : Call) :
    Sat NoHole (fun r => DenseAll r.2 ↔ ¬ Wipes sp.sz c) (call env s i sp c) := by
  have hkeep : ∀ {c : Call} {x : Except Fault (Bool × Sys)}, ¬ Wipes sp.sz c →
      Sat NoHole (fun r => DenseAll r.2) x →
      Sat NoHole (fun r => DenseAll r.2 ↔ ¬ Wipes sp.sz c) x :=
    fun hc hx => hx.imp fun _ h => iff_of_true h hc
  have hfile : ∀ {x : Except Fault (Bool × Sys)}, Sat FileFault (fun r => Shrinks s r.2) x →
      Sat NoHole (fun r => DenseAll r.2) x :=
    fun hx => hx.mono (fun _ => FileFault.noHole) fun _ h' => h'.denseAll h
  cases c with
  | fork => exact hkeep id (fork_dense hs h hsp)
  | exec image argv => exact hkeep id (sysExec_dense h image argv)
  | sbrk n => exact sysSbrk_dense hs h hsp n
  | exit => exact hkeep id (exit_dense hs h)
  | wait => exact hkeep id (wait_dense h)
  | pipe => exact hkeep id (hfile (sysPipe_shrinks hs i))
  | close fd => exact hkeep id (hfile (sysClose_shrinks hs i fd))
  | dup fd => exact hkeep id (hfile (sysDup_shrinks s i fd))
  | openFile ip omode => exact hkeep id (hfile (sysOpen_shrinks hs i ip omode))

/-- Density is all there is to soundness. -/
theorem sound_iff (hs : Owned env s) : Sound env s ↔ DenseAll s := by
  refine ⟨fun h i sp hsp => (h i sp hsp).1, fun h i sp hsp => ⟨h i sp hsp, ?_, fun c e he => ?_⟩⟩
  · exact (hs.small i sp (by rw [life_of_space hsp]; rfl)).2
  · exact (call_dense hs h hsp c).of_error he

/-! ## Runs -/

theorem sound_step {a : Fin 64 × Call} (hs : Owned env s) (h : Sound env s)
    (hst : step env s a = some s') : Sound env s' ↔ NoWipe s a := by
  obtain ⟨sp, b, hsp, hcall⟩ := step_eq_some.mp hst
  rw [sound_iff (owned_step hs hst)]
  have hiff := (call_dense hs ((sound_iff hs).mp h) hsp a.2).of_ok hcall
  refine hiff.trans ⟨fun hno sp' hsp' => ?_, fun hno => hno sp hsp⟩
  obtain rfl := Option.some.inj (hsp.symm.trans hsp')
  exact hno

/-- The first process is dense when it starts, if no page was refused to `main`. -/
theorem boot_dense {s₀ : Sys} (hboot : boot env = .ok s₀)
    (hfails : ∀ n < s₀.kmem.calls, env.fails n = false) : DenseAll s₀ := by
  obtain ⟨r, m, hrun, rfl⟩ := boot_eq_ok.mp hboot
  intro i sp hsp
  rw [space_eq_some] at hsp
  dsimp only at hsp
  split at hsp
  · cases hsp
    rcases ((bootMem_draws env).of_ok hrun).2 with hd | ⟨n, hn, hfail⟩
    · exact hd.1
    · rw [hfails n hn] at hfail
      cases hfail
  · cases hsp

/-- **Address-space density**: in a run from the start of the kernel, every live process is
dense in every state, and no call meets a panic of `copyuvm` or `loaduvm`, exactly when no
process ever shrinks itself to size 0. -/
theorem dense_iff_noWipe {s₀ : Sys} {acts : List (Fin 64 × Call)} (hboot : boot env = .ok s₀)
    (hfails : ∀ n < s₀.kmem.calls, env.fails n = false)
    (hrun : Machine.exec (step env) s₀ acts = some s) :
    Throughout (step env) (Sound env) s₀ acts ↔ Along (step env) NoWipe s₀ acts := by
  have h₀ : Owned env s₀ := owned_boot.of_ok hboot
  exact throughout_iff_along (I := Owned env) (fun s a s' hs _ hst => owned_step hs hst)
    (fun s a s' hs _ h hst => sound_step hs h hst) h₀
    ((sound_iff h₀).mpr (boot_dense hboot hfails)) along_true hrun

/-- The first process of `smallKernel`, which has one page. -/
theorem smallKernel_boot : ∃ s₀ sp, boot smallKernel = .ok s₀ ∧ s₀.space initproc = some sp ∧
    sp.sz = PGSIZE := by
  obtain ⟨s₀, hboot⟩ := boot_ok smallKernel (fun _ _ => rfl) (by decide)
  obtain ⟨r, m, hrun, hs₀⟩ := boot_eq_ok.mp hboot
  refine ⟨s₀, r.2.2, hboot, ?_, ((bootMem_owns _).of_ok hrun).1⟩
  rw [hs₀]
  rfl

theorem dense_iff_noWipe_smallKernel : ∃ s₀ s, boot smallKernel = .ok s₀ ∧
    Machine.exec (step smallKernel) s₀ [(initproc, .sbrk 0)] = some s ∧
    (Throughout (step smallKernel) (Sound smallKernel) s₀ [(initproc, .sbrk 0)] ↔
      Along (step smallKernel) NoWipe s₀ [(initproc, .sbrk 0)]) := by
  obtain ⟨s₀, sp, hboot, hsp, -⟩ := smallKernel_boot
  obtain ⟨s, hstep⟩ := step_sbrk_zero smallKernel hsp
  have hrun : Machine.exec (step smallKernel) s₀ [(initproc, .sbrk 0)] = some s := by
    rw [exec_cons, hstep]
    rfl
  exact ⟨s₀, s, hboot, hrun, dense_iff_noWipe hboot (fun _ _ => rfl) hrun⟩

/-- A process that gives memory back is not stopped. -/
theorem sysSbrk_ok (hs : Owned env s) (hsp : s.space i = some sp) {n : ℤ} (hn : n < 0) :
    ∃ r, sysSbrk env s i sp n = .ok r := by
  have hfaults : Sat (· ∈ [Fault.kfree, .freedTwice]) (fun _ => True)
      (sysSbrk env s i sp n) := by
    unfold sysSbrk
    rw [sat_bind, sat_mem, growproc, if_neg (by omega), if_pos hn, wp_bind]
    refine (deallocuvm_faults _ _ _).mono fun r m _ => ?_
    dsimp only
    split <;> trivial
  cases hcall : sysSbrk env s i sp n with
  | ok r => exact ⟨r, rfl⟩
  | error e => exact absurd (hfaults.of_error hcall) ((sysSbrk_owned hs hsp n).of_error hcall)

/-- The first process calls `sbrk(-PGSIZE)`: its page is freed, and its size stays. -/
theorem sbrk_leaves_hole : ∃ s₀ s, boot smallKernel = .ok s₀ ∧
    Machine.exec (step smallKernel) s₀ [(initproc, .sbrk (-4096))] = some s ∧
    ¬ Sound smallKernel s := by
  obtain ⟨s₀, sp, hboot, hsp, hsz⟩ := smallKernel_boot
  have h₀ : Owned smallKernel s₀ := owned_boot.of_ok hboot
  have hsound := (sound_iff h₀).mpr (boot_dense hboot fun _ _ => rfl)
  obtain ⟨r, hr⟩ := sysSbrk_ok (n := (-4096 : Int32).toInt) h₀ hsp (by decide)
  have hstep : step smallKernel s₀ (initproc, .sbrk (-4096)) = some r.2 :=
    step_eq_some.mpr ⟨sp, r.1, hsp, hr⟩
  refine ⟨s₀, r.2, hboot, ?_, fun hbad => ?_⟩
  · rw [exec_cons, hstep]
    rfl
  · refine (sound_step h₀ hsound hstep).mp hbad sp hsp ?_
    rw [hsz]
    exact ⟨by decide, by decide⟩

end Xv6.Vm
