import Xv6.Lib.Machine
import Xv6.Lib.Outcome
import Xv6.Vm.Boot
import Mathlib.Algebra.Order.BigOperators.Group.Finset

/-!
# One owner for each page

A physical page is on the free list, or it is the kernel stack, the page directory, a page
table or a user page of one process, or a pipe, or none of these; it is never two of them.
Each call moves pages between the free list and the rest and makes no second use of any;
some calls lose pages.

## Main definitions

* `Sys.owners s q` — the number of uses of page `q`, its places on the free list included.
* `Owned` — no page has two, and every process is smaller than `KERNBASE`.

## Main results

* `owned_step`, `owned_boot` — the invariant.
* `pages_exclusive` — what it says, in every run.
-/

namespace Xv6.Vm

open Function Prog Outcome Machine

/-- What a process has, live or not. -/
def Life.space : Life → Option Space
  | .unused => none
  | .live sp => some sp
  | .zombie sp => some sp

def Life.owns (q : Page) : Life → ℕ
  | .unused => 0
  | .live sp => sp.owns q
  | .zombie sp => sp.owns q

/-- The uses of a page by the pipe in it. -/
def Pipe.owns : Option Pipe → ℕ
  | none => 0
  | some _ => 1

@[simp] theorem Pipe.owns_none : Pipe.owns none = 0 := rfl

@[simp] theorem Pipe.owns_some (x : Pipe) : Pipe.owns (some x) = 1 := rfl

namespace Sys

/-- The uses of page `q` other than as a free page. -/
def used (s : Sys) (q : Page) : ℕ :=
  s.kpgdir.owns q + s.cpuStacks.count q + Pipe.owns (s.pipe q) +
    ∑ i, (s.proc i).life.owns q

/-- The uses of page `q`. -/
def owners (s : Sys) (q : Page) : ℕ := s.kmem.free q + s.used q

end Sys

/-- No page has two owners, only memory behind the kernel has any, and the sizes of
processes are in the user's half. -/
structure Owned (env : Env) (s : Sys) : Prop where
  sole : ∀ q, s.owners q ≤ env.room q
  small : ∀ i sp, (s.proc i).life.space = some sp → 0 < sp.sz ∧ sp.sz < KERNBASE

/-- The failures other than those of `kfree`. -/
def NotKfree (e : Fault) : Prop := e ∉ [Fault.kfree, .freedTwice]

instance : DecidablePred NotKfree := fun e =>
  inferInstanceAs (Decidable (e ∉ [Fault.kfree, .freedTwice]))

theorem VmFault.notKfree {e : Fault} (h : VmFault e) : NotKfree e := by
  revert h
  cases e <;> decide

/-- What the calls on files may stop with. -/
def FileFault (e : Fault) : Prop := e ∈ [Fault.filedup, .fileclose, .pipeclose]

instance : DecidablePred FileFault := fun e =>
  inferInstanceAs (Decidable (e ∈ [Fault.filedup, .fileclose, .pipeclose]))

theorem FileFault.notKfree {e : Fault} (h : FileFault e) : NotKfree e := by
  revert h
  cases e <;> decide

variable {env : Env} {s s' t : Sys} {i j : Fin 64} {p q : Page} {R : Fault → Prop}

/-! ## Updates of the state -/

/-- A part that works on memory leaves the rest. -/
theorem sat_mem {α : Type} {m : MemProg α} {Q : α × Sys → Prop} :
    Sat R Q (s.mem env m) ↔
      wp (handle env) R m (fun a k => Q (a, { s with kmem := k })) s.kmem := by
  simp only [Sys.mem, wp]
  cases run (handle env) m s.kmem <;> rfl

/-- The same for the functions on memory. -/
theorem sat_mem_of_wp {α : Type} {m : MemProg α} {Q : α × Sys → Prop}
    (h : wp (handle env) VmFault m (fun a k => Q (a, { s with kmem := k })) s.kmem) :
    Sat NotKfree Q (s.mem env m) :=
  sat_mem.mpr (h.weaken fun _ => VmFault.notKfree)

theorem used_setProc (s : Sys) (i : Fin 64) (x : Proc) (q : Page) :
    (s.setProc i x).used q + (s.proc i).life.owns q = s.used q + x.life.owns q := by
  have h := Tally.sum_update (Finset.mem_univ i) s.proc x fun x => x.life.owns q
  simp only [Sys.used, Sys.setProc] at h ⊢
  omega

/-- Only the page the pipe is in changes its use. -/
theorem used_setPipe (s : Sys) (p : Page) (x : Option Pipe) (q : Page) :
    (s.setPipe p x).used q + Pipe.owns (s.pipe p) * holds p q =
      s.used q + Pipe.owns x * holds p q := by
  by_cases hq : p = q
  · subst hq
    simp only [Sys.used, Sys.setPipe, update_self, holds_self]
    omega
  · simp [Sys.used, Sys.setPipe, update_of_ne (Ne.symm hq), holds, hq]

/-- What the calls on files do: no page gets an owner, and processes stay as they are. -/
structure Shrinks (s s' : Sys) : Prop where
  owners : ∀ q, s'.owners q ≤ s.owners q
  life : ∀ i, (s'.proc i).life = (s.proc i).life

namespace Shrinks

theorem refl (s : Sys) : Shrinks s s := ⟨fun _ => le_rfl, fun _ => rfl⟩

theorem trans (h : Shrinks s s') (h' : Shrinks s' t) : Shrinks s t :=
  ⟨fun q => (h'.owners q).trans (h.owners q), fun i => (h'.life i).trans (h.life i)⟩

theorem setFile (s : Sys) (f : Fin 100) (x : File) : Shrinks s (s.setFile f x) :=
  ⟨fun _ => le_rfl, fun _ => rfl⟩

theorem setFd (s : Sys) (i : Fin 64) (fd : Fin 16) (f : Option (Fin 100)) :
    Shrinks s (s.setFd i fd f) where
  owners q := by
    have h := used_setProc s i { s.proc i with ofile := update (s.proc i).ofile fd f } q
    dsimp only at h
    exact Nat.add_le_add_left (Nat.add_right_cancel h).le _
  life j := by
    by_cases hj : j = i
    · subst hj
      simp [Sys.setFd, Sys.setProc]
    · simp [Sys.setFd, Sys.setProc, hj]

theorem owned (h : Shrinks s s') (hs : Owned env s) : Owned env s' where
  sole q := (h.owners q).trans (hs.sole q)
  small i sp hsp := hs.small i sp (by rw [← h.life i]; exact hsp)

end Shrinks

/-! ## Files and pipes -/

theorem filealloc_shrinks (s : Sys) : Shrinks s (filealloc s).2 := by
  unfold filealloc
  split
  · exact .refl s
  · exact .setFile ..

theorem fdalloc_shrinks (s : Sys) (i : Fin 64) (f : Fin 100) : Shrinks s (fdalloc s i f).2 := by
  unfold fdalloc
  split
  · exact .refl s
  · exact .setFd ..

theorem filedup_shrinks (s : Sys) (f : Fin 100) : Sat FileFault (Shrinks s) (filedup s f) := by
  unfold filedup
  split
  · exact (sat_error _).mpr (by decide)
  · exact Shrinks.setFile ..

section

variable (hs : Owned env s)
include hs

theorem pipeclose_shrinks (p : Page) (writable : Bool) :
    Sat FileFault (Shrinks s) (pipeclose env s p writable) := by
  unfold pipeclose
  split
  · exact (sat_error _).mpr (by decide)
  rename_i x hx
  have hset := fun y q => used_setPipe s p y q
  simp only [hx, Pipe.owns_some, Nat.one_mul] at hset
  split
  · -- The pipe gives its page up, so it was not free.
    rw [sat_bind]
    refine sat_mem.mpr (wp_kfree (.inr ?_) ⟨fun q => ?_, fun _ => rfl⟩)
    · have hle := hs.sole p
      have hp := hset none p
      simp only [holds_self, Pipe.owns_none, Sys.owners] at hp hle
      omega
    · have hq := hset none q
      have hfree := free_freed s.kmem p q
      rw [Pipe.owns_none] at hq
      show Kmem.free _ q + (s.setPipe p none).used q ≤ s.kmem.free q + s.used q
      simp only [Sys.setPipe] at hfree hq ⊢
      omega
  · refine ⟨fun q => ?_, fun _ => rfl⟩
    have hq := hset (some (x.shut writable)) q
    rw [Pipe.owns_some, Nat.one_mul] at hq
    exact Nat.add_le_add_left (Nat.add_right_cancel hq).le _

theorem fileclose_shrinks (f : Fin 100) :
    Sat FileFault (Shrinks s) (fileclose env s f) := by
  unfold fileclose
  dsimp only
  split
  · exact (sat_error _).mpr (by decide)
  split
  · exact Shrinks.setFile ..
  · have hset := Shrinks.setFile s f { s.file f with ref := 0, kind := .none }
    split
    · exact (pipeclose_shrinks (hset.owned hs) _ _).imp fun s' h => hset.trans h
    · exact hset

/-- Both ends of a pipe are closed. -/
theorem fileclose_two_shrinks {β : Type} (f g : Fin 100) (b : β) :
    Sat FileFault (fun r => Shrinks s r.2)
      (do let s ← fileclose env s f
          let s ← fileclose env s g
          return (b, s)) := by
  rw [sat_bind]
  refine (fileclose_shrinks hs f).imp fun s₁ h₁ => ?_
  rw [sat_bind]
  exact (fileclose_shrinks (h₁.owned hs) g).imp fun s₂ h₂ => h₁.trans h₂

/-- A free page is not a pipe. -/
theorem pipe_eq_none_of_free (hp : 0 < s.kmem.free p) : s.pipe p = none := by
  have hle := (hs.sole p).trans (room_le_one env p)
  simp only [Sys.owners, Sys.used] at hle
  cases hx : s.pipe p with
  | none => rfl
  | some x =>
    rw [hx, Pipe.owns_some] at hle
    omega

theorem pipealloc_shrinks :
    Sat FileFault (fun r => Shrinks s r.2) (pipealloc env s) := by
  unfold pipealloc
  have h₀ := filealloc_shrinks s
  split
  · rename_i s₀ hf
    rw [hf] at h₀
    exact h₀
  rename_i f0 s₀ hf
  rw [hf] at h₀
  have h₁ := filealloc_shrinks s₀
  split
  · rename_i s₁ hf'
    rw [hf'] at h₁
    replace h₁ := h₀.trans h₁
    rw [sat_bind]
    exact (fileclose_shrinks (h₁.owned hs) f0).imp fun s₂ h₂ => h₁.trans h₂
  rename_i f1 s₁ hf'
  rw [hf'] at h₁
  replace h₁ := h₀.trans h₁
  have hown := h₁.owned hs
  rw [sat_bind]
  refine sat_mem.mpr (wp_kalloc (fun _ => ?_) fun p ps hm _ => ?_)
  · have h₂ : Shrinks s { s₁ with kmem := ⟨s₁.kmem.freelist, s₁.kmem.calls + 1⟩ } :=
      h₁.trans ⟨fun _ => le_rfl, fun _ => rfl⟩
    exact (fileclose_two_shrinks (h₂.owned hs) f0 f1 none).imp fun r h => h₂.trans h
  · -- The page leaves the free list and becomes a pipe.
    have htaken := free_taken hm (s₁.kmem.calls + 1)
    have hnone : s₁.pipe p = none := by
      refine pipe_eq_none_of_free hown ?_
      have hp := htaken p
      rw [holds_self] at hp
      omega
    refine h₁.trans ⟨fun q => ?_, fun _ => rfl⟩
    have hset := used_setPipe s₁ p (some ⟨true, true⟩) q
    rw [hnone, Pipe.owns_none, Pipe.owns_some] at hset
    have hq := htaken q
    show Kmem.free _ q + (s₁.setPipe p (some ⟨true, true⟩)).used q ≤ _
    simp only [Sys.owners, Sys.setPipe, Sys.setFile] at hset ⊢
    omega

theorem sysPipe_shrinks (i : Fin 64) :
    Sat FileFault (fun r => Shrinks s r.2) (sysPipe env s i) := by
  unfold sysPipe
  rw [sat_bind]
  refine (pipealloc_shrinks hs).imp fun r h₁ => ?_
  obtain ⟨fs, s₁⟩ := r
  cases fs with
  | none => exact h₁
  | some fs =>
    obtain ⟨rf, wf⟩ := fs
    dsimp only at h₁ ⊢
    have h₂ := fdalloc_shrinks s₁ i rf
    split
    · rename_i s₂ hfd
      rw [hfd] at h₂
      replace h₂ := h₁.trans h₂
      exact (fileclose_two_shrinks (h₂.owned hs) rf wf false).imp fun r h => h₂.trans h
    rename_i fd0 s₂ hfd
    rw [hfd] at h₂
    replace h₂ := h₁.trans h₂
    have h₃ := fdalloc_shrinks s₂ i wf
    split
    · rename_i s₃ hfd'
      rw [hfd'] at h₃
      replace h₃ := (h₂.trans h₃).trans (.setFd s₃ i fd0 none)
      exact (fileclose_two_shrinks (h₃.owned hs) rf wf false).imp fun r h => h₃.trans h
    · rename_i fd1 s₃ hfd'
      rw [hfd'] at h₃
      exact h₂.trans h₃

theorem sysClose_shrinks (i : Fin 64) (fd : ℤ) :
    Sat FileFault (fun r => Shrinks s r.2) (sysClose env s i fd) := by
  unfold sysClose
  split
  · exact Shrinks.refl s
  · rename_i fd f _
    have h₁ := Shrinks.setFd s i fd none
    rw [sat_bind]
    exact (fileclose_shrinks (h₁.owned hs) f).imp fun s₂ h₂ => h₁.trans h₂

end

theorem sysDup_shrinks (s : Sys) (i : Fin 64) (fd : ℤ) :
    Sat FileFault (fun r => Shrinks s r.2) (sysDup s i fd) := by
  unfold sysDup
  split
  · exact Shrinks.refl s
  rename_i fd' f _
  have h₁ := fdalloc_shrinks s i f
  split
  · rename_i s₁ hfd
    rw [hfd] at h₁
    exact h₁
  · rename_i fd₁ s₁ hfd
    rw [hfd] at h₁
    rw [sat_bind]
    exact (filedup_shrinks s₁ f).imp fun s₂ h₂ => h₁.trans h₂

theorem sysOpen_shrinks (hs : Owned env s) (i : Fin 64) (ip : Option ℕ) (omode : ℕ) :
    Sat FileFault (fun r => Shrinks s r.2) (sysOpen env s i ip omode) := by
  unfold sysOpen
  split
  · exact Shrinks.refl s
  rename_i ip
  have h₁ := filealloc_shrinks s
  split
  · rename_i s₁ hf
    rw [hf] at h₁
    exact h₁
  rename_i f s₁ hf
  rw [hf] at h₁
  have h₂ := fdalloc_shrinks s₁ i f
  split
  · rename_i s₂ hfd
    rw [hfd] at h₂
    replace h₂ := h₁.trans h₂
    rw [sat_bind]
    exact (fileclose_shrinks (h₂.owned hs) f).imp fun s₃ h₃ => h₂.trans h₃
  · rename_i fd s₂ hfd
    rw [hfd] at h₂
    exact (h₁.trans h₂).trans (.setFile ..)

/-! ## Processes -/

theorem dupFiles_shrinks (s : Sys) (i j : Fin 64) :
    Sat FileFault (Shrinks s) (dupFiles s i j) := by
  unfold dupFiles
  refine sat_foldlM (fun fd _ t ht => ?_) (Shrinks.refl s)
  split
  · exact ht
  · rename_i f _
    rw [sat_bind]
    refine (filedup_shrinks t f).imp fun t' h => ?_
    exact (ht.trans h).trans (.setFd ..)

theorem closeFiles_shrinks (hs : Owned env s) (i : Fin 64) :
    Sat FileFault (Shrinks s) (closeFiles env s i) := by
  unfold closeFiles
  refine sat_foldlM (fun fd _ t ht => ?_) (Shrinks.refl s)
  split
  · exact ht
  · rename_i f _
    rw [sat_bind]
    refine (fileclose_shrinks (ht.owned hs) f).imp fun t' h => ?_
    exact (ht.trans h).trans (.setFd ..)

theorem reparent_shrinks (s : Sys) (i : Fin 64) : Shrinks s (reparent s i) := by
  have hlife : ∀ j, ((reparent s i).proc j).life = (s.proc j).life := by
    intro j
    simp only [reparent]
    split <;> rfl
  refine ⟨fun q => ?_, hlife⟩
  simp only [Sys.owners, Sys.used, hlife]
  exact le_rfl

/-- Memory may lose pages. -/
theorem Owned.setKmem (hs : Owned env s) {m : Kmem} (h : ∀ q, m.free q ≤ s.kmem.free q) :
    Owned env { s with kmem := m } :=
  ⟨fun q => (Nat.add_le_add_right (h q) _).trans (hs.sole q), hs.small⟩

/-- A process takes another form, with the pages that are there. -/
theorem Owned.setProc (hs : Owned env s) (x : Proc) (m : Kmem)
    (howns : ∀ q, m.free q + x.life.owns q ≤ s.kmem.free q + (s.proc i).life.owns q)
    (hsmall : ∀ sp, x.life.space = some sp → 0 < sp.sz ∧ sp.sz < KERNBASE) :
    Owned env { s.setProc i x with kmem := m } where
  sole q := by
    have hset := used_setProc s i x q
    have hle := hs.sole q
    have hq := howns q
    show m.free q + (s.setProc i x).used q ≤ env.room q
    simp only [Sys.owners] at hle
    omega
  small j sp hsp := by
    by_cases hj : j = i
    · subst hj
      simp only [Sys.setProc, update_self] at hsp
      exact hsmall sp hsp
    · simp only [Sys.setProc, update_of_ne hj] at hsp
      exact hs.small j sp hsp

/-- Of the pages of a process, none is free or twice its own. -/
theorem Owned.life_owns (hs : Owned env s) (i : Fin 64) (q : Page) :
    s.kmem.free q + (s.proc i).life.owns q ≤ env.room q := by
  have hle := hs.sole q
  have hterm := Finset.single_le_sum (f := fun j => (s.proc j).life.owns q)
    (fun _ _ => Nat.zero_le _) (Finset.mem_univ i)
  simp only [Sys.owners, Sys.used] at hle
  omega

theorem life_of_space {sp : Space} (h : s.space i = some sp) : (s.proc i).life = .live sp := by
  unfold Sys.space at h
  split at h
  · rename_i sp' hlife
    rw [hlife, Option.some.inj h]
  · cases h

/-- The slot `allocproc` takes is unused, and the kernel stack came from the free list. -/
theorem allocproc_spec (s : Sys) : Sat R (fun r => ∃ m, r.2 = { s with kmem := m } ∧
    match r.1 with
    | none => ∀ q, m.free q = s.kmem.free q
    | some (j, kstack) => (s.proc j).life = .unused ∧
        ∀ q, m.free q + holds kstack q = s.kmem.free q) (allocproc env s) := by
  unfold allocproc
  split
  · exact ⟨s.kmem, rfl, fun _ => rfl⟩
  · rename_i j hj
    have hunused : (s.proc j).life = .unused := by
      have h := List.find?_some hj
      cases hlife : (s.proc j).life with
      | unused => rfl
      | live sp => simp [hlife] at h
      | zombie sp => simp [hlife] at h
    rw [sat_bind, sat_mem]
    refine wp_kalloc (fun _ => ?_) fun p ps hm _ => ?_
    · exact ⟨⟨s.kmem.freelist, s.kmem.calls + 1⟩, rfl, fun _ => rfl⟩
    · exact ⟨⟨ps, s.kmem.calls + 1⟩, rfl, hunused, fun q => (free_taken hm _ q).symm⟩

theorem fork_owned (hs : Owned env s) {sp : Space} (hsp : s.space i = some sp) :
    Sat NotKfree (fun r => Owned env r.2) (fork env s i sp) := by
  have hsz := hs.small i sp (by rw [life_of_space hsp]; rfl)
  unfold fork
  rw [sat_bind]
  refine (allocproc_spec s).imp fun r hr => ?_
  obtain ⟨np, s₁⟩ := r
  obtain ⟨m, rfl, hm⟩ := hr
  cases np with
  | none => exact hs.setKmem fun q => (hm q).le
  | some np =>
    obtain ⟨j, kstack⟩ := np
    obtain ⟨hunused, hm⟩ := hm
    have hfree : ∀ q, m.free q + holds kstack q ≤ env.room q := by
      intro q
      rw [hm q]
      exact (Nat.le_add_right _ _).trans (hs.sole q)
    dsimp only
    rw [sat_bind]
    refine sat_mem_of_wp ((copyuvm_owns env.layout hsz.2.le fun q =>
      (Nat.le_add_right _ _).trans (hfree q)).mono fun o m₂ h₂ => ?_)
    cases o with
    | none =>
      dsimp only at h₂ ⊢
      rw [sat_bind]
      refine sat_mem_of_wp (wp_kfree (.inr ?_) ?_)
      · have hle := h₂ kstack
        have hk := hfree kstack
        rw [holds_self] at hk
        show 1 + m₂.free kstack ≤ env.room kstack
        omega
      · refine hs.setKmem (m := ⟨kstack :: m₂.freelist, m₂.calls⟩) fun q => ?_
        have hle := h₂ q
        have hq := hm q
        rw [free_freed]
        omega
    | some d =>
      dsimp only at h₂ ⊢
      rw [sat_bind]
      have hown : Owned env
          { s.setProc j ⟨.live ⟨kstack, d, sp.sz⟩, some i, (s.proc j).ofile⟩ with
            kmem := m₂ } := by
        refine hs.setProc _ m₂ (fun q => ?_) fun sp' hsp' => ?_
        · have hq := hm q
          have hd := h₂ q
          simp only [Life.owns, Space.owns]
          omega
        · cases hsp'
          exact hsz
      exact (dupFiles_shrinks _ i j).mono (fun _ => FileFault.notKfree)
        fun s₃ h₃ => h₃.owned hown

theorem sysExec_owned (hs : Owned env s) {sp : Space} (hsp : s.space i = some sp)
    (image : Option Image) (argv : Argv) :
    Sat NotKfree (fun r => Owned env r.2) (sysExec env s i sp image argv) := by
  have hlife := life_of_space hsp
  have hle := hs.life_owns i
  simp only [hlife, Life.owns, Space.owns] at hle
  unfold sysExec
  rw [sat_bind]
  refine sat_mem_of_wp ((exec_owns env.layout sp.pgdir image argv fun q => ?_).mono
    fun o m h => ?_)
  · have hq := hle q
    omega
  cases o with
  | none => exact hs.setKmem h
  | some r =>
    obtain ⟨hsum, hsz⟩ := h
    refine hs.setProc _ m (fun q => ?_) fun sp' hsp' => ?_
    · have hq := hsum q
      simp only [hlife, Life.owns, Space.owns]
      omega
    · cases hsp'
      exact hsz

theorem sysSbrk_owned (hs : Owned env s) {sp : Space} (hsp : s.space i = some sp) (n : ℤ) :
    Sat NotKfree (fun r => Owned env r.2) (sysSbrk env s i sp n) := by
  have hlife := life_of_space hsp
  have hle := hs.life_owns i
  have hsz := hs.small i sp (by rw [hlife]; rfl)
  simp only [hlife, Life.owns, Space.owns] at hle
  unfold sysSbrk
  rw [sat_bind]
  refine sat_mem_of_wp ((growproc_owns hsz n fun q => ?_).mono fun r m h => ?_)
  · have hq := hle q
    omega
  obtain ⟨hsum, hsz'⟩ := h
  refine hs.setProc _ m (fun q => ?_) fun sp' hsp' => ?_
  · have hq := hsum q
    simp only [hlife, Life.owns, Space.owns]
    omega
  · cases hsp'
    exact hsz'

theorem exit_owned (hs : Owned env s) {sp : Space} (hsp : s.space i = some sp) :
    Sat NotKfree (fun r => Owned env r.2) (exit env s i sp) := by
  unfold exit
  split
  · exact (sat_error _).mpr (by decide)
  rw [sat_bind]
  refine (closeFiles_shrinks hs i).mono (fun _ => FileFault.notKfree) fun s₁ h₁ => ?_
  have h₂ := h₁.trans (reparent_shrinks s₁ i)
  have hlife : ((reparent s₁ i).proc i).life = .live sp := (h₂.life i).trans (life_of_space hsp)
  refine (h₂.owned hs).setProc _ _ (fun q => ?_) fun sp' hsp' => ?_
  · rw [hlife]
    exact le_rfl
  · exact hs.small i sp' (by rw [life_of_space hsp]; exact hsp')

/-- The child that `wait` finds has exited. -/
theorem life_of_found {sp : Space}
    (h : ((List.finRange 64).findSome? fun j => (zombieChild s i j).map fun sp => (j, sp)) =
      some (j, sp)) : (s.proc j).life = .zombie sp := by
  obtain ⟨k, -, hk⟩ := List.exists_of_findSome?_eq_some h
  obtain ⟨sp', hz, heq⟩ := Option.map_eq_some_iff.mp hk
  obtain ⟨rfl, rfl⟩ := Prod.mk.injEq .. ▸ heq
  unfold zombieChild at hz
  split at hz
  · split at hz
    · rename_i sp'' hlife
      rw [hlife, Option.some.inj hz]
    · cases hz
  · cases hz

theorem wait_owned (hs : Owned env s) (i : Fin 64) :
    Sat NotKfree (fun r => Owned env r.2) (wait env s i) := by
  unfold wait
  split
  · exact hs
  rename_i j sp hj
  have hlife := life_of_found hj
  have hle := hs.life_owns j
  simp only [hlife, Life.owns, Space.owns] at hle
  rw [sat_bind]
  refine sat_mem_of_wp (wp_kfree (.inr ?_) ?_)
  · have hk := hle sp.kstack
    rw [holds_self] at hk
    omega
  dsimp only
  rw [sat_bind]
  refine sat_mem_of_wp ((freevm_owns sp.pgdir fun q => ?_).mono fun _ m h => ?_)
  · have hq := hle q
    rw [free_freed]
    omega
  · refine hs.setProc _ m (fun q => ?_) fun sp' hsp' => ?_
    · have hq := h q
      rw [free_freed] at hq
      simp only [hlife, Life.owns, Space.owns]
      omega
    · cases hsp'

/-! ## Runs -/

theorem call_owned (hs : Owned env s) {sp : Space} (hsp : s.space i = some sp) (c : Call) :
    Sat NotKfree (fun r => Owned env r.2) (call env s i sp c) := by
  have hfile : ∀ {x : Except Fault (Bool × Sys)}, Sat FileFault (fun r => Shrinks s r.2) x →
      Sat NotKfree (fun r => Owned env r.2) x :=
    fun hx => hx.mono (fun _ => FileFault.notKfree) fun _ h => h.owned hs
  cases c with
  | fork => exact fork_owned hs hsp
  | exec image argv => exact sysExec_owned hs hsp image argv
  | sbrk n => exact sysSbrk_owned hs hsp n.toInt
  | exit => exact exit_owned hs hsp
  | wait => exact wait_owned hs i
  | pipe => exact hfile (sysPipe_shrinks hs i)
  | close fd => exact hfile (sysClose_shrinks hs i fd)
  | dup fd => exact hfile (sysDup_shrinks s i fd)
  | openFile ip omode => exact hfile (sysOpen_shrinks hs i ip omode)

/-- What a step is. -/
theorem step_eq_some {a : Fin 64 × Call} : step env s a = some s' ↔
    ∃ sp b, s.space a.1 = some sp ∧ call env s a.1 sp a.2 = .ok (b, s') := by
  unfold step
  cases hsp : s.space a.1 with
  | none => simp
  | some sp =>
    dsimp only
    cases hcall : call env s a.1 sp a.2 with
    | ok r =>
      obtain ⟨b, t⟩ := r
      simp only [Option.some.injEq, Except.ok.injEq, Prod.mk.injEq, exists_and_left,
        exists_eq_left', hcall]
    | error e => simp [hcall]

theorem owned_step {a : Fin 64 × Call} (hs : Owned env s) (h : step env s a = some s') :
    Owned env s' := by
  obtain ⟨sp, b, hsp, hcall⟩ := step_eq_some.mp h
  exact (call_owned hs hsp a.2).of_ok hcall

theorem owned_boot : Sat NotKfree (Owned env) (boot env) := by
  have h := (bootMem_owns env).weaken fun _ => VmFault.notKfree
  unfold boot
  rw [wp] at h
  split at h
  · rename_i r m hrun
    obtain ⟨kpgdir, l, sp⟩ := r
    rw [hrun]
    obtain ⟨hsz, hsole⟩ := h
    refine ⟨fun q => ?_, fun i sp' hsp' => ?_⟩
    · have hq := hsole q
      have hsum : ∑ i : Fin 64, Life.owns q (if i = initproc then
          (⟨.live sp, none, fun _ => none⟩ : Proc) else ⟨.unused, none, fun _ => none⟩).life =
          sp.owns q := by
        rw [Finset.sum_eq_single initproc]
        · rw [if_pos rfl]
          rfl
        · intro i _ hi
          rw [if_neg hi]
          rfl
        · exact fun h => absurd (Finset.mem_univ _) h
      simp only [Sys.owners, Sys.used, hsum, Pipe.owns_none]
      dsimp only at hq
      omega
    · dsimp only at hsp'
      split at hsp'
      · cases hsp'
        rw [hsz]
        decide
      · cases hsp'
  · rename_i e hrun
    rw [hrun]
    exact h

/-- The state after `main`: one process, with what `userinit` gave it. -/
theorem boot_eq_ok : boot env = .ok s ↔ ∃ r m,
    run (handle env) (bootMem env.layout env.others) ⟨[], 0⟩ = .ok (r, m) ∧
    s = ⟨m, r.1, r.2.1, fun _ => none, fun _ => ⟨.none, 0, false, false⟩, fun i =>
      if i = initproc then ⟨.live r.2.2, none, fun _ => none⟩
      else ⟨.unused, none, fun _ => none⟩⟩ := by
  unfold boot
  cases hrun : run (handle env) (bootMem env.layout env.others) ⟨[], 0⟩ with
  | ok r =>
    obtain ⟨⟨kpgdir, l, sp⟩, m⟩ := r
    simp only [Except.ok.injEq, Prod.mk.injEq]
    constructor
    · rintro rfl
      exact ⟨(kpgdir, l, sp), m, ⟨rfl, rfl⟩, rfl⟩
    · rintro ⟨r, m', ⟨rfl, rfl⟩, rfl⟩
      rfl
  | error e => simp

/-- **The kernel comes up** when none of the pages it asks for is refused. -/
theorem boot_ok (env : Env) (hfails : ∀ n < 133 + env.others, env.fails n = false)
    (hstop : env.layout.stop + 65 ≤ EARLY) : ∃ s, boot env = .ok s := by
  have h := bootMem_draws env
  cases hrun : run (handle env) (bootMem env.layout env.others) ⟨[], 0⟩ with
  | ok r => exact ⟨_, boot_eq_ok.mpr ⟨r.1, r.2, hrun, rfl⟩⟩
  | error e =>
    rcases h.of_error hrun with ⟨n, hn, hfail⟩ | hlt
    · rw [hfails n hn] at hfail
      cases hfail
    · omega

/-! ### What the invariant says -/

/-- Page `q` is what the entry for virtual page `v` of the user's half maps. -/
def Maps (pd : PageDir) (v : ℕ) (q : Page) : Prop :=
  v < KERNPAGE ∧ ∃ e, pd.pte v = some e ∧ e.page = q

theorem owns_of_maps {pd : PageDir} {v : ℕ} (h : Maps pd v q) :
    (pd.setPte v none).owns q + 1 = pd.owns q := by
  obtain ⟨hv, e, he, rfl⟩ := h
  have htab : (pd.table (pdx v)).isSome := by
    by_contra hnone
    rw [pte_of_table_none (by simpa using hnone)] at he
    cases he
  have hset := owns_setPte hv htab none e.page
  rw [he] at hset
  simpa [Pte.owns] using hset

/-- Two entries that map the same page are the same. -/
theorem Maps.unique {pd : PageDir} {v w : ℕ} (hv : Maps pd v q) (hw : Maps pd w q)
    (hle : pd.owns q ≤ 1) : v = w := by
  have hfit := kernpage_lt_vpages
  by_contra hne
  have hown := owns_of_maps hv
  obtain ⟨hwk, e, he, heq⟩ := hw
  have hstill : Maps (pd.setPte v none) w q := by
    refine ⟨hwk, e, ?_, heq⟩
    rw [pte_setPte_of_ne (by omega) (by have := hv.1; omega) (Ne.symm hne)]
    exact he
  have hown' := owns_of_maps hstill
  omega

/-- The pages of two processes are apart. -/
theorem Owned.apart (hs : Owned env s) (hne : i ≠ j) (q : Page) :
    (s.proc i).life.owns q + (s.proc j).life.owns q ≤ 1 := by
  have hle := (hs.sole q).trans (room_le_one env q)
  have hsum : (s.proc i).life.owns q + (s.proc j).life.owns q ≤ ∑ k, (s.proc k).life.owns q := by
    rw [← Finset.sum_pair (f := fun k => (s.proc k).life.owns q) hne]
    exact Finset.sum_le_sum_of_subset (Finset.subset_univ _)
  simp only [Sys.owners, Sys.used] at hle
  omega

/-- What is to hold of the pages: each has one owner at most and only memory behind the
kernel has any; no call frees a page that is free, or one that is not memory; a free page
has no other use; and no user page is mapped twice, by one process or by two. -/
structure Exclusive (env : Env) (s : Sys) : Prop where
  owners_le : ∀ q, s.owners q ≤ 1
  memory : ∀ q, s.owners q ≠ 0 → env.layout.stop ≤ q ∧ q < PHYSTOP
  not_freed : ∀ i sp c, s.space i = some sp → call env s i sp c ≠ .error .freedTwice ∧
    call env s i sp c ≠ .error .kfree
  free_unused : ∀ q ∈ s.kmem.freelist, s.used q = 0
  unshared : ∀ i j spi spj v w q, (s.proc i).life.space = some spi →
    (s.proc j).life.space = some spj → Maps spi.pgdir v q → Maps spj.pgdir w q → i = j ∧ v = w

theorem life_owns_of_maps {sp : Space} {v : ℕ} (hsp : (s.proc i).life.space = some sp)
    (h : Maps sp.pgdir v q) : sp.pgdir.owns q ≤ (s.proc i).life.owns q ∧ 0 < sp.pgdir.owns q := by
  have hown := owns_of_maps h
  cases hlife : (s.proc i).life with
  | unused =>
    rw [hlife] at hsp
    cases hsp
  | live sp' =>
    rw [hlife] at hsp
    cases hsp
    simp only [Life.owns, Space.owns]
    omega
  | zombie sp' =>
    rw [hlife] at hsp
    cases hsp
    simp only [Life.owns, Space.owns]
    omega

theorem Owned.exclusive (hs : Owned env s) : Exclusive env s where
  owners_le q := (hs.sole q).trans (room_le_one env q)
  memory q hq := by
    have hle := hs.sole q
    by_contra hout
    rw [Env.room, if_neg hout] at hle
    omega
  not_freed i sp c hsp := by
    refine ⟨fun h => ?_, fun h => ?_⟩
    · exact (call_owned hs hsp c).of_error h (by decide)
    · exact (call_owned hs hsp c).of_error h (by decide)
  free_unused q hq := by
    have hle := (hs.sole q).trans (room_le_one env q)
    have hpos : 0 < s.kmem.free q := List.count_pos_iff.mpr hq
    simp only [Sys.owners] at hle
    omega
  unshared i j spi spj v w q hi hj hv hw := by
    obtain ⟨hlei, hposi⟩ := life_owns_of_maps hi hv
    obtain ⟨hlej, hposj⟩ := life_owns_of_maps hj hw
    by_cases hne : i = j
    · subst hne
      obtain rfl := Option.some.inj (hi.symm.trans hj)
      have hle := (hs.life_owns i q).trans (room_le_one env q)
      exact ⟨rfl, hv.unique hw (by omega)⟩
    · have hle := hs.apart hne q
      omega

/-- **No page has two owners**: not when the first process starts, and not after any calls
of any processes, wherever `kalloc` fails. -/
theorem pages_exclusive {s₀ : Sys} {acts : List (Fin 64 × Call)} (hboot : boot env = .ok s₀)
    (hrun : Machine.exec (step env) s₀ acts = some s) : Exclusive env s := by
  have h₀ : Owned env s₀ := owned_boot.of_ok hboot
  exact (exec_invariant (fun s a s' hs _ hst => owned_step hs hst) h₀ along_true hrun).exclusive

/-- A kernel of 16 pages on a machine with two processors. -/
def smallKernel : Env :=
  { layout := ⟨0x108, 0x110, by decide, by decide, by decide⟩
    others := 1
    fails := fun _ => false }

/-- The first process is asked for nothing. -/
theorem step_sbrk_zero (env : Env) {sp : Space} (hsp : s.space i = some sp) :
    ∃ s', step env s (i, .sbrk 0) = some s' :=
  ⟨_, step_eq_some.mpr ⟨sp, true, hsp, rfl⟩⟩

theorem pages_exclusive_smallKernel : ∃ s₀ s, boot smallKernel = .ok s₀ ∧
    Machine.exec (step smallKernel) s₀ [(initproc, .sbrk 0)] = some s ∧
    Exclusive smallKernel s := by
  obtain ⟨s₀, hboot⟩ := boot_ok smallKernel (fun _ _ => rfl) (by decide)
  have hsp : ∃ sp, s₀.space initproc = some sp := by
    obtain ⟨r, m, -, rfl⟩ := boot_eq_ok.mp hboot
    exact ⟨r.2.2, rfl⟩
  obtain ⟨sp, hsp⟩ := hsp
  obtain ⟨s, hstep⟩ := step_sbrk_zero smallKernel hsp
  have hrun : Machine.exec (step smallKernel) s₀ [(initproc, .sbrk 0)] = some s := by
    rw [exec_cons, hstep]
    rfl
  exact ⟨s₀, s, hboot, hrun, pages_exclusive hboot hrun⟩

end Xv6.Vm
