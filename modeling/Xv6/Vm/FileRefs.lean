import Xv6.Vm.Exclusive
import Mathlib.Algebra.BigOperators.Ring.Finset
import Mathlib.Data.Fintype.BigOperators

/-!
# Reference counts of open files

`ref` of an entry of the file table counts the descriptors that point to it, and the flags
of a pipe say which of its ends are open.  The calls change the counts and the descriptors
one after the other, so between the two an entry may be counted once more, or once less,
than it is pointed to; `hand` says for which, and is 0 between calls.

## Main definitions

* `Sys.refs s f` — the descriptors of all processes that point to entry `f`.
* `Sys.ends s p w` — the entries that are the read or the write end of the pipe in page `p`.
* `Counted hand s` — the counts are right, up to `hand`.
* `Frees s s'` — a pipe that is gone has left its page on the free list.

## Main results

* `call_counted` — the calls keep the counts, and meet none of the panics of `file.c`.
* `file_refs` — what follows for every run.
-/

namespace Xv6.Vm

open Function Prog Outcome Machine

/-- Whether a descriptor points to `f`. -/
def points (o : Option (Fin 100)) (f : Fin 100) : ℕ := if o = some f then 1 else 0

/-- The descriptors of a process that point to `f`. -/
def Proc.refs (x : Proc) (f : Fin 100) : ℕ := ∑ fd, points (x.ofile fd) f

/-- Whether an entry is the end `w` of the pipe in page `p`. -/
def File.isEnd (p : Page) (w : Bool) (x : File) : ℕ :=
  if x.kind = .pipe p ∧ x.writable = w then 1 else 0

/-- The flag of end `w`. -/
def Pipe.flag (x : Pipe) (w : Bool) : Bool := if w then x.writeopen else x.readopen

/-- Whether there is a pipe whose end `w` is open. -/
def Pipe.isOpen (w : Bool) : Option Pipe → ℕ
  | none => 0
  | some x => if x.flag w then 1 else 0

def Life.isLive : Life → Bool
  | .live _ => true
  | _ => false

namespace Sys

/-- The descriptors that point to `f`. -/
def refs (s : Sys) (f : Fin 100) : ℕ := ∑ i, (s.proc i).refs f

/-- The entries that are end `w` of the pipe in page `p`. -/
def ends (s : Sys) (p : Page) (w : Bool) : ℕ := ∑ f, (s.file f).isEnd p w

end Sys

/-- The counts are right, up to what is in hand. -/
structure Counted (hand : Fin 100 → ℤ) (s : Sys) : Prop where
  /-- `ref` counts the descriptors. -/
  refs : ∀ f, ((s.file f).ref : ℤ) = s.refs f + hand f
  /-- An entry that is not in use has type `FD_NONE`. -/
  idle : ∀ f, (s.file f).ref = 0 → (s.file f).kind = .none
  /-- A pipe's end is open while there is one entry for it; there are never two. -/
  ends : ∀ p w, s.ends p w = Pipe.isOpen w (s.pipe p)
  /-- A pipe with no open end is gone. -/
  alive : ∀ p x, s.pipe p = some x → x.flag false = true ∨ x.flag true = true
  /-- Only live processes have open files. -/
  closed : ∀ i, (s.proc i).life.isLive = false → ∀ fd, (s.proc i).ofile fd = none

/-- A pipe that is gone has left its page on the free list, and that has lost nothing. -/
structure Frees (s s' : Sys) : Prop where
  pipes : ∀ p, (s.pipe p).isSome → (s'.pipe p).isSome ∨ p ∈ s'.kmem.freelist
  free : ∀ p ∈ s.kmem.freelist, p ∈ s'.kmem.freelist

/-- The failures other than those of `file.c` and `pipe.c`. -/
def NotFile (e : Fault) : Prop := e ∉ [Fault.filedup, .fileclose, .pipeclose]

instance : DecidablePred NotFile := fun e =>
  inferInstanceAs (Decidable (e ∉ [Fault.filedup, .fileclose, .pipeclose]))

theorem VmFault.notFile {e : Fault} (h : VmFault e) : NotFile e := by
  revert h
  cases e <;> decide

variable {env : Env} {s s' t : Sys} {i j : Fin 64} {f g : Fin 100} {fd : Fin 16} {p : Page}
  {hand : Fin 100 → ℤ} {R : Fault → Prop}

theorem Frees.refl (s : Sys) : Frees s s := ⟨fun _ => .inl, fun _ => id⟩

theorem Frees.trans (h : Frees s s') (h' : Frees s' t) : Frees s t :=
  ⟨fun p hp => (h.pipes p hp).elim (h'.pipes p) fun hf => .inr (h'.free p hf),
    fun p hp => h'.free p (h.free p hp)⟩

theorem Frees.setFile (s : Sys) (f : Fin 100) (x : File) : Frees s (s.setFile f x) :=
  ⟨fun _ => .inl, fun _ => id⟩

theorem Frees.setFd (s : Sys) (i : Fin 64) (fd : Fin 16) (o : Option (Fin 100)) :
    Frees s (s.setFd i fd o) :=
  ⟨fun _ => .inl, fun _ => id⟩

/-! ## Updates -/

@[simp] theorem points_self (f : Fin 100) : points (some f) f = 1 := if_pos rfl

@[simp] theorem points_none (f : Fin 100) : points none f = 0 := rfl

theorem points_of_ne (h : f ≠ g) : points (some f) g = 0 :=
  if_neg fun heq => h (Option.some.inj heq)

theorem refs_setProc (s : Sys) (i : Fin 64) (x : Proc) (f : Fin 100) :
    (s.setProc i x).refs f + (s.proc i).refs f = s.refs f + x.refs f :=
  Tally.sum_update (Finset.mem_univ i) s.proc x fun x => x.refs f

/-- A descriptor is set. -/
theorem refs_setFd (s : Sys) (i : Fin 64) (fd : Fin 16) (o : Option (Fin 100)) (f : Fin 100) :
    (s.setFd i fd o).refs f + points ((s.proc i).ofile fd) f = s.refs f + points o f := by
  have hproc : (s.setFd i fd o).refs f + (s.proc i).refs f = s.refs f + _ := refs_setProc s i _ f
  have hfd := Tally.sum_update (Finset.mem_univ fd) (s.proc i).ofile o fun o => points o f
  simp only [Proc.refs] at hproc
  omega

theorem ends_setFile (s : Sys) (f : Fin 100) (x : File) (p : Page) (w : Bool) :
    (s.setFile f x).ends p w + (s.file f).isEnd p w = s.ends p w + x.isEnd p w :=
  Tally.sum_update (Finset.mem_univ f) s.file x fun x => x.isEnd p w

/-- A descriptor that points to an entry is counted. -/
theorem refs_pos (h : (s.proc i).ofile fd = some f) : 0 < s.refs f := by
  have hfd : points ((s.proc i).ofile fd) f ≤ (s.proc i).refs f :=
    Finset.single_le_sum (f := fun fd => points ((s.proc i).ofile fd) f)
      (fun _ _ => Nat.zero_le _) (Finset.mem_univ fd)
  have hproc : (s.proc i).refs f ≤ s.refs f :=
    Finset.single_le_sum (f := fun i => (s.proc i).refs f) (fun _ _ => Nat.zero_le _)
      (Finset.mem_univ i)
  rw [h, points_self] at hfd
  omega

/-- An entry that is an end of a pipe makes that end open. -/
theorem Counted.flag_of_end (h : Counted hand s) {w : Bool} (hk : (s.file f).kind = .pipe p)
    (hw : (s.file f).writable = w) : ∃ x, s.pipe p = some x ∧ x.flag w = true := by
  have hend : (s.file f).isEnd p w ≤ s.ends p w :=
    Finset.single_le_sum (f := fun f => (s.file f).isEnd p w) (fun _ _ => Nat.zero_le _)
      (Finset.mem_univ f)
  rw [h.ends p w, File.isEnd, if_pos ⟨hk, hw⟩] at hend
  cases hx : s.pipe p with
  | none =>
    rw [hx, Pipe.isOpen] at hend
    omega
  | some x =>
    rw [hx, Pipe.isOpen] at hend
    by_cases hflag : x.flag w
    · exact ⟨x, rfl, hflag⟩
    · rw [if_neg hflag] at hend
      omega

@[simp] theorem setFd_file (s : Sys) (i : Fin 64) (fd : Fin 16) (o : Option (Fin 100)) :
    (s.setFd i fd o).file = s.file := rfl

/-- **A descriptor of a live process is set.** -/
theorem Counted.setFd (h : Counted hand s) (hlive : (s.proc i).life.isLive = true)
    (fd : Fin 16) (o : Option (Fin 100)) :
    Counted (fun f => hand f + points ((s.proc i).ofile fd) f - points o f) (s.setFd i fd o) where
  refs f := by
    have hset := refs_setFd s i fd o f
    have hf := h.refs f
    rw [setFd_file]
    omega
  idle := h.idle
  ends := h.ends
  alive := h.alive
  closed j hj fd' := by
    by_cases hji : j = i
    · subst hji
      simp only [Sys.setFd, Sys.setProc, update_self, hlive] at hj
      cases hj
    · simp only [Sys.setFd, Sys.setProc, update_of_ne hji] at hj ⊢
      exact h.closed j hj fd'

theorem Counted.congr {hand' : Fin 100 → ℤ} (h : Counted hand s) (hh : ∀ f, hand f = hand' f) :
    Counted hand' s := by
  obtain rfl : hand = hand' := funext hh
  exact h

/-! ## The file table -/

/-- `filealloc` takes an entry that nothing points to, and nothing else changes. -/
theorem filealloc_cases (s : Sys) : filealloc s = (none, s) ∨ ∃ f, (s.file f).ref = 0 ∧
    filealloc s = (some f, s.setFile f { s.file f with ref := 1 }) := by
  unfold filealloc
  split
  · exact .inl rfl
  · rename_i f hf
    exact .inr ⟨f, by simpa using List.find?_some hf, rfl⟩

/-- `fdalloc` takes a free descriptor. -/
theorem fdalloc_cases (s : Sys) (i : Fin 64) (f : Fin 100) : fdalloc s i f = (none, s) ∨
    ∃ fd, (s.proc i).ofile fd = none ∧ fdalloc s i f = (some fd, s.setFd i fd (some f)) := by
  unfold fdalloc
  split
  · exact .inl rfl
  · rename_i fd hfd
    exact .inr ⟨fd, by simpa using List.find?_some hfd, rfl⟩

/-- **`ref` of an entry is set**, its type and ends being as before. -/
theorem Counted.setRef (h : Counted hand s) (f : Fin 100) (n : ℕ)
    (hidle : n = 0 → (s.file f).kind = .none) :
    Counted (fun g => hand g + if g = f then (n : ℤ) - (s.file f).ref else 0)
      (s.setFile f { s.file f with ref := n }) where
  refs g := by
    have hg := h.refs g
    by_cases hgf : g = f
    · subst hgf
      simp only [Sys.setFile, update_self, if_true]
      show (n : ℤ) = (s.refs g : ℤ) + _
      omega
    · simp only [Sys.setFile, update_of_ne hgf, if_neg hgf]
      show ((s.file g).ref : ℤ) = (s.refs g : ℤ) + _
      omega
  idle g hg := by
    by_cases hgf : g = f
    · subst hgf
      simp only [Sys.setFile, update_self] at hg ⊢
      exact hidle hg
    · simp only [Sys.setFile, update_of_ne hgf] at hg ⊢
      exact h.idle g hg
  ends p w := by
    have hset := ends_setFile s f { s.file f with ref := n } p w
    rw [show ({ s.file f with ref := n } : File).isEnd p w = (s.file f).isEnd p w from rfl] at hset
    rw [Nat.add_right_cancel hset]
    exact h.ends p w
  alive := h.alive
  closed := h.closed

theorem filedup_counted (h : Counted hand s) (hpos : 0 < (s.file f).ref) :
    Sat R (fun s' => Counted (fun g => hand g + points (some f) g) s' ∧ s'.proc = s.proc ∧
      Frees s s') (filedup s f) := by
  unfold filedup
  rw [if_neg (by omega)]
  refine ⟨(h.setRef f _ (by omega)).congr fun g => ?_, rfl, .setFile ..⟩
  by_cases hgf : g = f
  · subst hgf
    rw [if_pos rfl, points_self]
    omega
  · rw [if_neg hgf, points_of_ne (Ne.symm hgf)]
    rfl

/-- `fileclose` of an entry that is pointed to once more. -/
theorem Counted.release (h : Counted hand s) (hmore : 0 < (s.file f).ref - 1) :
    Counted (fun g => hand g - points (some f) g)
      (s.setFile f { s.file f with ref := (s.file f).ref - 1 }) := by
  refine (h.setRef f _ (by omega)).congr fun g => ?_
  by_cases hgf : g = f
  · subst hgf
    rw [if_pos rfl, points_self]
    omega
  · rw [if_neg hgf, points_of_ne (Ne.symm hgf)]
    omega

theorem isEnd_of_not_pipe {x : File} (hk : ∀ p, x.kind ≠ .pipe p) (q : Page) (w : Bool) :
    x.isEnd q w = 0 := if_neg fun h => hk q h.1

/-- The last descriptor of an entry goes, and with it the end of a pipe that it was. -/
theorem Counted.drop (h : Counted hand s) (hone : (s.file f).ref = 1) (pipe : Page → Option Pipe)
    (m : Kmem)
    (hends : ∀ p w, Pipe.isOpen w (pipe p) + (s.file f).isEnd p w = Pipe.isOpen w (s.pipe p))
    (halive : ∀ p x, pipe p = some x → x.flag false = true ∨ x.flag true = true) :
    Counted (fun g => hand g - points (some f) g)
      { s.setFile f { s.file f with ref := 0, kind := .none } with pipe := pipe, kmem := m } where
  refs g := by
    have hg := h.refs g
    by_cases hgf : g = f
    · subst hgf
      simp only [Sys.setFile, update_self, points_self]
      show ((0 : ℕ) : ℤ) = (s.refs g : ℤ) + _
      omega
    · simp only [Sys.setFile, update_of_ne hgf, points_of_ne (Ne.symm hgf)]
      show ((s.file g).ref : ℤ) = (s.refs g : ℤ) + _
      omega
  idle g hg := by
    by_cases hgf : g = f
    · subst hgf
      simp [Sys.setFile]
    · simp only [Sys.setFile, update_of_ne hgf] at hg ⊢
      exact h.idle g hg
  ends p w := by
    have hset := ends_setFile s f { s.file f with ref := 0, kind := .none } p w
    have hnew : ({ s.file f with ref := 0, kind := .none } : File).isEnd p w = 0 :=
      isEnd_of_not_pipe (fun _ hq => FileKind.noConfusion hq) p w
    have hp := hends p w
    have hs := h.ends p w
    show (s.setFile f _).ends p w = Pipe.isOpen w (pipe p)
    omega
  alive := halive
  closed := h.closed

theorem flag_shut (x : Pipe) (w w' : Bool) :
    (x.shut w).flag w' = if w' = w then false else x.flag w' := by
  cases w <;> cases w' <;> rfl

theorem isEnd_pipe {x : File} (hk : x.kind = .pipe p) (q : Page) (w : Bool) :
    x.isEnd q w = if q = p ∧ w = x.writable then 1 else 0 := by
  simp only [File.isEnd, hk, FileKind.pipe.injEq]
  congr 1
  simp only [eq_iff_iff]
  exact ⟨fun h => ⟨h.1.symm, h.2.symm⟩, fun h => ⟨h.1.symm, h.2.symm⟩⟩

/-- **`fileclose`** of an entry that is counted: no panic, and a pipe whose last end goes is
freed. -/
theorem fileclose_counted (h : Counted hand s) (hpos : 0 < (s.file f).ref) :
    Sat NotFile (fun s' => Counted (fun g => hand g - points (some f) g) s' ∧ s'.proc = s.proc ∧
      Frees s s') (fileclose env s f) := by
  unfold fileclose
  dsimp only
  rw [if_neg (by omega)]
  by_cases hmore : 0 < (s.file f).ref - 1
  · rw [if_pos hmore]
    exact ⟨h.release hmore, rfl, .setFile ..⟩
  rw [if_neg hmore]
  have hone : (s.file f).ref = 1 := by omega
  have hplain : (∀ p, (s.file f).kind ≠ .pipe p) →
      Counted (fun g => hand g - points (some f) g)
        (s.setFile f { s.file f with ref := 0, kind := .none }) := by
    intro hk
    refine h.drop hone s.pipe s.kmem (fun p w => ?_) h.alive
    rw [isEnd_of_not_pipe hk]
    rfl
  split
  · rename_i p hk
    obtain ⟨x, hx, hflag⟩ := h.flag_of_end hk rfl
    -- The flag of this end goes, and those of other ends and pipes stay.
    have hends : ∀ o, (∀ w, Pipe.isOpen w o = Pipe.isOpen w (some (x.shut (s.file f).writable))) →
        ∀ q w, Pipe.isOpen w (update s.pipe p o q) + (s.file f).isEnd q w =
          Pipe.isOpen w (s.pipe q) := by
      intro o ho q w
      rw [isEnd_pipe hk]
      by_cases hq : q = p
      · subst hq
        rw [update_self, ho w, hx]
        simp only [Pipe.isOpen, flag_shut, true_and]
        by_cases hw : w = (s.file f).writable
        · subst hw
          simp [hflag]
        · simp [hw]
      · rw [update_of_ne hq]
        simp [hq]
    unfold pipeclose
    simp only [Sys.setFile, hx]
    split
    · rename_i hboth
      rw [sat_bind, sat_mem]
      refine wp_kfree (.inl ⟨by decide, by decide⟩) ⟨h.drop hone _ _ (hends none fun w => ?_) ?_,
        rfl, fun q hq => ?_, fun q hq => List.mem_cons_of_mem _ hq⟩
      · cases w
        · simp [Pipe.isOpen, Pipe.flag, hboth.1]
        · simp [Pipe.isOpen, Pipe.flag, hboth.2]
      · intro q y hy
        by_cases hqp : q = p
        · subst hqp
          rw [update_self] at hy
          cases hy
        · rw [update_of_ne hqp] at hy
          exact h.alive q y hy
      · by_cases hqp : q = p
        · subst hqp
          exact .inr List.mem_cons_self
        · refine .inl ?_
          simp only [Sys.setPipe, update_of_ne hqp]
          exact hq
    · rename_i hboth
      refine ⟨h.drop hone _ _ (hends _ fun w => rfl) ?_, rfl, fun q hq => .inl ?_, fun q hq => hq⟩
      · intro q y hy
        by_cases hqp : q = p
        · subst hqp
          rw [update_self] at hy
          cases hy
          by_contra hnone
          refine hboth ?_
          simpa [Pipe.flag] using hnone
        · rw [update_of_ne hqp] at hy
          exact h.alive q y hy
      · by_cases hqp : q = p
        · subst hqp
          simp [Sys.setPipe]
        · simp only [Sys.setPipe, update_of_ne hqp]
          exact hq
  · rename_i hk
    exact ⟨hplain fun p hp => hk p hp, rfl, .setFile ..⟩

/-- Both ends of a pipe, or two new entries, are closed. -/
theorem fileclose_two_counted {β : Type} (h : Counted hand s) (hf : 0 < (s.file f).ref)
    (hg : 0 < (s.file g).ref) (hne : f ≠ g) (b : β) :
    Sat NotFile (fun r => r.1 = b ∧
      Counted (fun k => hand k - points (some f) k - points (some g) k) r.2 ∧
      r.2.proc = s.proc ∧ Frees s r.2)
      (do let s ← fileclose env s f
          let s ← fileclose env s g
          return (b, s)) := by
  rw [sat_bind]
  refine (fileclose_counted h hf).imp fun s₁ h₁ => ?_
  obtain ⟨hcount, hproc, hfrees⟩ := h₁
  -- The other entry has not been touched.
  have hg₁ : 0 < (s₁.file g).ref := by
    have hnew := hcount.refs g
    have hold := h.refs g
    rw [points_of_ne hne] at hnew
    have hrefs : s₁.refs g = s.refs g := by rw [Sys.refs, hproc, Sys.refs]
    omega
  rw [sat_bind]
  refine (fileclose_counted hcount hg₁).imp fun s₂ h₂ => ?_
  exact ⟨rfl, h₂.1, h₂.2.1.trans hproc, hfrees.trans h₂.2.2⟩

/-! ## The calls -/

/-- Counts depend on descriptors, entries and pipes only. -/
theorem Counted.of_same (h : Counted hand s) (hfile : s'.file = s.file) (hpipe : s'.pipe = s.pipe)
    (hofile : ∀ j, (s'.proc j).ofile = (s.proc j).ofile)
    (hclosed : ∀ j, (s'.proc j).life.isLive = false → ∀ fd, (s'.proc j).ofile fd = none) :
    Counted hand s' where
  refs f := by
    have hrefs : s'.refs f = s.refs f :=
      Finset.sum_congr rfl fun j _ => by simp only [Proc.refs, hofile j]
    rw [hfile, hrefs]
    exact h.refs f
  idle f := by
    rw [hfile]
    exact h.idle f
  ends p w := by
    rw [hpipe, ← h.ends p w]
    exact Finset.sum_congr rfl fun f _ => by rw [hfile]
  alive p x := by
    rw [hpipe]
    exact h.alive p x
  closed := hclosed

theorem Counted.setKmem (h : Counted hand s) (m : Kmem) : Counted hand { s with kmem := m } :=
  h.of_same rfl rfl (fun _ => rfl) h.closed

/-- Pipes that were there are there, or their pages are free. -/
def PipesKept (s s' : Sys) : Prop :=
  ∀ p, (s.pipe p).isSome → (s'.pipe p).isSome ∨ p ∈ s'.kmem.freelist

/-- No entry is in hand. -/
def noHand : Fin 100 → ℤ := fun _ => 0

/-- What a call leaves. -/
def Settled (s : Sys) (r : Bool × Sys) : Prop := Counted noHand r.2 ∧ PipesKept s r.2

theorem isLive_of_space {sp : Space} (h : s.space i = some sp) :
    (s.proc i).life.isLive = true := by
  rw [life_of_space h]
  rfl

theorem argfd_eq_some {n : ℤ} (h : argfd s i n = some (fd, f)) : (s.proc i).ofile fd = some f := by
  unfold argfd at h
  split at h
  · cases h
  · obtain ⟨f', hf', heq⟩ := Option.map_eq_some_iff.mp h
    obtain ⟨rfl, rfl⟩ := Prod.mk.injEq .. ▸ heq
    exact hf'

/-- A descriptor that points to an entry keeps its count above 0. -/
theorem Counted.ref_pos (h : Counted hand s) (hfd : (s.proc i).ofile fd = some f)
    (hh : 0 ≤ hand f) : 0 < (s.file f).ref := by
  have hpos := refs_pos hfd
  have hf := h.refs f
  omega

theorem sysClose_counted {sp : Space} (h : Counted noHand s) (hsp : s.space i = some sp) (n : ℤ) :
    Sat NotFile (Settled s) (sysClose env s i n) := by
  unfold sysClose
  split
  · exact ⟨h, fun p hp => .inl hp⟩
  rename_i fd f harg
  have hfd := argfd_eq_some harg
  have h₁ := h.setFd (isLive_of_space hsp) fd none
  rw [hfd] at h₁
  rw [sat_bind]
  refine (fileclose_counted h₁ (h.ref_pos hfd le_rfl)).imp fun s₂ h₂ => ?_
  obtain ⟨hcount, -, hfrees⟩ := h₂
  refine ⟨hcount.congr fun g => ?_, (Frees.setFd s i fd none).trans hfrees |>.pipes⟩
  simp [noHand]

theorem sysDup_counted {sp : Space} (h : Counted noHand s) (hsp : s.space i = some sp) (n : ℤ) :
    Sat NotFile (Settled s) (sysDup s i n) := by
  unfold sysDup
  split
  · exact ⟨h, fun p hp => .inl hp⟩
  rename_i fd f harg
  have hpos := h.ref_pos (argfd_eq_some harg) le_rfl
  rcases fdalloc_cases s i f with hfd | ⟨fd', hnone, hfd⟩
  · rw [hfd]
    exact ⟨h, fun p hp => .inl hp⟩
  · rw [hfd]
    have h₁ := h.setFd (isLive_of_space hsp) fd' (some f)
    rw [hnone] at h₁
    dsimp only
    rw [sat_bind]
    refine (filedup_counted h₁ hpos).imp fun s₂ h₂ => ?_
    obtain ⟨hcount, -, hfrees⟩ := h₂
    refine ⟨hcount.congr fun g => ?_, ((Frees.setFd s i fd' (some f)).trans hfrees).pipes⟩
    simp [noHand]

/-- A new entry is in hand, and it is of no kind. -/
theorem filealloc_counted (h : Counted hand s) (hf : (s.file f).ref = 0) :
    Counted (fun g => hand g + points (some f) g) (s.setFile f { s.file f with ref := 1 }) := by
  refine (h.setRef f 1 (by omega)).congr fun g => ?_
  by_cases hgf : g = f
  · subst hgf
    rw [if_pos rfl, points_self, hf]
    rfl
  · rw [if_neg hgf, points_of_ne (Ne.symm hgf)]
    rfl

/-- An entry gets another kind, which is not a pipe either. -/
theorem Counted.setKind (h : Counted hand s) (hpos : 0 < (s.file f).ref)
    (hk : ∀ p, (s.file f).kind ≠ .pipe p) {x : File} (hx : ∀ p, x.kind ≠ .pipe p)
    (href : x.ref = (s.file f).ref) : Counted hand (s.setFile f x) where
  refs g := by
    by_cases hgf : g = f
    · subst hgf
      simp only [Sys.setFile, update_self, href]
      exact h.refs g
    · simp only [Sys.setFile, update_of_ne hgf]
      exact h.refs g
  idle g hg := by
    by_cases hgf : g = f
    · subst hgf
      simp only [Sys.setFile, update_self] at hg
      omega
    · simp only [Sys.setFile, update_of_ne hgf] at hg ⊢
      exact h.idle g hg
  ends p w := by
    have hset := ends_setFile s f x p w
    rw [isEnd_of_not_pipe hk, isEnd_of_not_pipe hx, Nat.add_zero, Nat.add_zero] at hset
    rw [hset]
    exact h.ends p w
  alive := h.alive
  closed := h.closed

theorem sysOpen_counted {sp : Space} (h : Counted noHand s) (hsp : s.space i = some sp)
    (ip : Option ℕ) (omode : ℕ) : Sat NotFile (Settled s) (sysOpen env s i ip omode) := by
  unfold sysOpen
  split
  · exact ⟨h, fun p hp => .inl hp⟩
  rename_i ip
  rcases filealloc_cases s with hf | ⟨f, hzero, hf⟩
  · rw [hf]
    exact ⟨h, fun p hp => .inl hp⟩
  rw [hf]
  have h₁ := filealloc_counted h hzero
  generalize hs₁ : s.setFile f { s.file f with ref := 1 } = s₁ at h₁
  have hfrees : Frees s s₁ := hs₁ ▸ Frees.setFile ..
  have hfile : s₁.file f = { s.file f with ref := 1 } := by
    rw [← hs₁]
    simp [Sys.setFile]
  have hlive : (s₁.proc i).life.isLive = true := by
    rw [← hs₁]
    exact isLive_of_space hsp
  dsimp only
  rcases fdalloc_cases s₁ i f with hfd | ⟨fd, hnone, hfd⟩
  · rw [hfd]
    dsimp only
    rw [sat_bind]
    refine (fileclose_counted h₁ (by rw [hfile]; exact Nat.one_pos)).imp fun s₂ h₂ => ?_
    refine ⟨h₂.1.congr fun g => ?_, (hfrees.trans h₂.2.2).pipes⟩
    simp [noHand]
  · rw [hfd]
    have h₂ := h₁.setFd hlive fd (some f)
    rw [hnone] at h₂
    refine ⟨(h₂.setKind (f := f) ?_ ?_ ?_ ?_).congr fun g => ?_,
      (hfrees.trans (Frees.setFd s₁ i fd (some f))).pipes⟩
    · rw [setFd_file, hfile]
      exact Nat.one_pos
    · intro p hp
      rw [setFd_file, hfile] at hp
      rw [h.idle f hzero] at hp
      cases hp
    · intro p hp
      cases hp
    · rfl
    · simp [noHand]

/-! ### Pipes -/

/-- Two new entries become the ends of a new pipe. -/
theorem Counted.newPipe (h : Counted hand s) (hne : f ≠ g) (hf : 0 < (s.file f).ref)
    (hg : 0 < (s.file g).ref) (hkf : (s.file f).kind = .none) (hkg : (s.file g).kind = .none)
    (hp : s.pipe p = none) :
    let s₁ := (s.setPipe p (some ⟨true, true⟩)).setFile f ⟨.pipe p, (s.file f).ref, true, false⟩
    let s₂ := s₁.setFile g ⟨.pipe p, (s₁.file g).ref, false, true⟩
    Counted hand s₂ ∧ ∀ k, (s₂.file k).ref = (s.file k).ref := by
  intro s₁ s₂
  have hg₁ : s₁.file g = s.file g := by simp [s₁, Sys.setFile, Sys.setPipe, hne.symm]
  have hfile : ∀ k, (s₂.file k).ref = (s.file k).ref := by
    intro k
    by_cases hkg' : k = g
    · subst hkg'
      simp [s₂, Sys.setFile, hg₁]
    · by_cases hkf' : k = f
      · subst hkf'
        simp [s₂, s₁, Sys.setFile, hkg']
      · simp [s₂, s₁, Sys.setFile, Sys.setPipe, hkg', hkf']
  refine ⟨⟨fun k => ?_, fun k hk => ?_, fun q w => ?_, fun q x hx => ?_, h.closed⟩, hfile⟩
  · rw [hfile k]
    exact h.refs k
  · rw [hfile k] at hk
    have hkf' : k ≠ f := by
      rintro rfl
      omega
    have hkg' : k ≠ g := by
      rintro rfl
      omega
    simp only [s₂, s₁, Sys.setFile, Sys.setPipe, update_of_ne hkf',
      update_of_ne hkg']
    exact h.idle k hk
  · -- One entry is added for each end of the new pipe.
    have h₁ := ends_setFile (s.setPipe p (some ⟨true, true⟩)) f
      ⟨.pipe p, (s.file f).ref, true, false⟩ q w
    have h₂ := ends_setFile s₁ g ⟨.pipe p, (s₁.file g).ref, false, true⟩ q w
    have hold : ((s.setPipe p (some ⟨true, true⟩)).file f).isEnd q w = 0 :=
      isEnd_of_not_pipe (fun q hq => FileKind.noConfusion (hkf.symm.trans hq)) q w
    have hold' : (s₁.file g).isEnd q w = 0 := by
      rw [hg₁]
      exact isEnd_of_not_pipe (fun q hq => FileKind.noConfusion (hkg.symm.trans hq)) q w
    have hs : (s.setPipe p (some ⟨true, true⟩)).ends q w = Pipe.isOpen w (s.pipe q) := h.ends q w
    rw [hold, Nat.add_zero, isEnd_pipe rfl] at h₁
    rw [hold', Nat.add_zero, isEnd_pipe rfl] at h₂
    rw [h₂, h₁, hs]
    simp only [s₂, s₁, Sys.setFile, Sys.setPipe]
    by_cases hq : q = p
    · subst hq
      rw [update_self, hp]
      cases w <;> simp [Pipe.isOpen, Pipe.flag]
    · rw [update_of_ne hq]
      simp [hq]
  · simp only [s₂, s₁, Sys.setFile, Sys.setPipe] at hx
    by_cases hq : q = p
    · subst hq
      rw [update_self] at hx
      cases hx
      exact .inl rfl
    · rw [update_of_ne hq] at hx
      exact h.alive q x hx

/-- What `pipealloc` leaves: nothing, or a pipe with two entries in hand. -/
theorem pipealloc_counted (hs : Owned env s) (h : Counted noHand s) :
    Sat NotFile (fun r => r.2.proc = s.proc ∧ PipesKept s r.2 ∧ match r.1 with
      | none => Counted noHand r.2
      | some (f, g) => f ≠ g ∧ 0 < (r.2.file f).ref ∧ 0 < (r.2.file g).ref ∧
          Counted (fun k => points (some f) k + points (some g) k) r.2) (pipealloc env s) := by
  have hkept : PipesKept s s := fun p hp => .inl hp
  unfold pipealloc
  rcases filealloc_cases s with hf | ⟨f, hzero, hf⟩
  · rw [hf]
    exact ⟨rfl, hkept, h⟩
  rw [hf]
  have h₁ := filealloc_counted h hzero
  generalize hs₁ : s.setFile f { s.file f with ref := 1 } = s₁ at h₁
  have hown₁ : Owned env s₁ := hs₁ ▸ (Shrinks.setFile ..).owned hs
  have hfile₁ : s₁.file f = { s.file f with ref := 1 } := by
    rw [← hs₁]
    simp [Sys.setFile]
  have hsame₁ : s₁.proc = s.proc ∧ s₁.pipe = s.pipe := by
    rw [← hs₁]
    exact ⟨rfl, rfl⟩
  have hkf : (s₁.file f).kind = .none := by
    rw [hfile₁]
    exact h.idle f hzero
  have hone : 0 < (s₁.file f).ref := by
    rw [hfile₁]
    exact Nat.one_pos
  dsimp only
  rcases filealloc_cases s₁ with hg | ⟨g, hzero', hg⟩
  · rw [hg]
    dsimp only
    rw [sat_bind]
    refine (fileclose_counted h₁ hone).imp fun s₂ h₂ => ?_
    refine ⟨h₂.2.1.trans hsame₁.1, fun p hp => h₂.2.2.pipes p (by rwa [hsame₁.2]),
      h₂.1.congr fun k => ?_⟩
    simp [noHand]
  rw [hg]
  have hne : f ≠ g := by
    rintro rfl
    omega
  have h₂ := filealloc_counted h₁ hzero'
  have hfile₂ : (s₁.setFile g { s₁.file g with ref := 1 }).file f = s₁.file f := by
    simp [Sys.setFile, hne]
  have hfile₂' : (s₁.setFile g { s₁.file g with ref := 1 }).file g =
      { s₁.file g with ref := 1 } := by
    simp [Sys.setFile]
  have hown₂ : Owned env (s₁.setFile g { s₁.file g with ref := 1 }) :=
    (Shrinks.setFile ..).owned hown₁
  have hsame₂ : (s₁.setFile g { s₁.file g with ref := 1 }).proc = s.proc ∧
      (s₁.setFile g { s₁.file g with ref := 1 }).pipe = s.pipe := hsame₁
  have hkg : ((s₁.setFile g { s₁.file g with ref := 1 }).file g).kind = .none := by
    rw [hfile₂']
    exact h₁.idle g hzero'
  have hone' : 0 < ((s₁.setFile g { s₁.file g with ref := 1 }).file g).ref := by
    rw [hfile₂']
    exact Nat.one_pos
  rw [← hfile₂] at hkf hone
  generalize s₁.setFile g { s₁.file g with ref := 1 } = s₂ at *
  dsimp only
  rw [sat_bind, sat_mem]
  refine wp_kalloc (fun _ => ?_) fun p ps hm _ => ?_
  · -- No page: both entries are closed again.
    refine (fileclose_two_counted (h₂.setKmem ⟨s₂.kmem.freelist, s₂.kmem.calls + 1⟩) hone hone'
      hne none).imp fun r hr => ?_
    obtain ⟨rnone, hcount, hproc, hfrees⟩ := hr
    refine ⟨hproc.trans hsame₂.1, fun p hp => hfrees.pipes p (by rwa [hsame₂.2]), ?_⟩
    rw [rnone]
    refine hcount.congr fun k => ?_
    simp [noHand]
  · have hfree : s₂.pipe p = none := by
      refine pipe_eq_none_of_free hown₂ ?_
      rw [Kmem.free, hm, List.count_cons_self]
      exact Nat.succ_pos _
    obtain ⟨h₃, hrefs⟩ :=
      (h₂.setKmem ⟨ps, s₂.kmem.calls + 1⟩).newPipe hne hone hone' hkf hkg hfree
    refine ⟨hsame₂.1, fun q hq => .inl ?_, hne, ?_, ?_, h₃.congr fun k => ?_⟩
    · by_cases hqp : q = p
      · subst hqp
        simp [Sys.setFile, Sys.setPipe]
      · simp only [Sys.setFile, Sys.setPipe, update_of_ne hqp]
        rwa [hsame₂.2]
    · exact lt_of_lt_of_eq hone (hrefs f).symm
    · exact lt_of_lt_of_eq hone' (hrefs g).symm
    · simp [noHand]

theorem sysPipe_counted {sp : Space} (hs : Owned env s) (h : Counted noHand s)
    (hsp : s.space i = some sp) : Sat NotFile (Settled s) (sysPipe env s i) := by
  unfold sysPipe
  rw [sat_bind]
  refine (pipealloc_counted hs h).imp fun r hr => ?_
  obtain ⟨fs, s₁⟩ := r
  obtain ⟨hproc, hkept, hr⟩ := hr
  have hlive : (s₁.proc i).life.isLive = true := by
    rw [show s₁.proc = s.proc from hproc]
    exact isLive_of_space hsp
  cases fs with
  | none => exact ⟨hr, hkept⟩
  | some fg =>
    obtain ⟨f, g⟩ := fg
    obtain ⟨hne, hf, hg, hcount⟩ := hr
    dsimp only at hf hg hcount hkept ⊢
    rcases fdalloc_cases s₁ i f with hfd | ⟨fd, hnone, hfd⟩
    · rw [hfd]
      refine (fileclose_two_counted hcount hf hg hne false).imp fun r hr => ?_
      obtain ⟨-, hr, -, hfrees⟩ := hr
      refine ⟨hr.congr fun k => ?_, fun p hp => (hkept p hp).elim (hfrees.pipes p) fun hfree =>
        .inr (hfrees.free p hfree)⟩
      simp only [noHand]
      omega
    rw [hfd]
    dsimp only
    have h₁ := hcount.setFd hlive fd (some f)
    rw [hnone] at h₁
    have hlive₁ : ((s₁.setFd i fd (some f)).proc i).life.isLive = true := by
      simp only [Sys.setFd, Sys.setProc, update_self]
      exact hlive
    rcases fdalloc_cases (s₁.setFd i fd (some f)) i g with hfd' | ⟨fd', hnone', hfd'⟩
    · -- The second descriptor is not to be had: the first is taken back.
      rw [hfd']
      dsimp only
      have h₂ := h₁.setFd hlive₁ fd none
      have hfd₁ : ((s₁.setFd i fd (some f)).proc i).ofile fd = some f := by
        simp [Sys.setFd, Sys.setProc]
      rw [hfd₁] at h₂
      refine (fileclose_two_counted h₂ hf hg hne false).imp fun r hr => ?_
      obtain ⟨-, hr, -, hfrees⟩ := hr
      refine ⟨hr.congr fun k => ?_, fun p hp => (hkept p hp).elim (hfrees.pipes p) fun hfree =>
        .inr (hfrees.free p hfree)⟩
      simp only [noHand, points_none]
      omega
    · rw [hfd']
      have h₂ := h₁.setFd hlive₁ fd' (some g)
      rw [hnone'] at h₂
      refine ⟨h₂.congr fun k => ?_, hkept⟩
      simp only [noHand, points_none]
      omega

/-! ### Processes -/

/-- The loop of `fork`: the child gets a descriptor for each of its parent's. -/
theorem dupFiles_loop (l : List (Fin 16)) (hl : l.Nodup) (h : Counted noHand s)
    (hlive : (s.proc j).life.isLive = true) (hnone : ∀ fd ∈ l, (s.proc j).ofile fd = none) :
    Sat NotFile (fun s' => Counted noHand s' ∧ Frees s s') (l.foldlM (fun s fd =>
      match (s.proc i).ofile fd with
      | none => .ok s
      | some f => do
          let s ← filedup s f
          return s.setFd j fd (some f)) s) := by
  induction l generalizing s with
  | nil => exact ⟨h, .refl s⟩
  | cons fd l ih =>
    obtain ⟨hfd, hl⟩ := List.nodup_cons.mp hl
    have hnone' : ∀ fd ∈ l, (s.proc j).ofile fd = none :=
      fun fd' h' => hnone fd' (List.mem_cons_of_mem _ h')
    rw [List.foldlM_cons, sat_bind]
    split
    · exact ih hl h hlive hnone'
    · rename_i f hf
      rw [sat_bind]
      refine (filedup_counted h (h.ref_pos hf le_rfl)).imp fun s₁ h₁ => ?_
      obtain ⟨hcount, hproc, hfrees⟩ := h₁
      have hlive₁ : (s₁.proc j).life.isLive = true := by
        rw [hproc]
        exact hlive
      have h₂ := hcount.setFd hlive₁ fd (some f)
      have hold : (s₁.proc j).ofile fd = none := by
        rw [hproc]
        exact hnone fd List.mem_cons_self
      rw [hold] at h₂
      refine (ih hl (h₂.congr fun g => ?_) ?_ fun fd' h' => ?_).imp fun s₃ h₃ =>
        ⟨h₃.1, (hfrees.trans (.setFd ..)).trans h₃.2⟩
      · simp [noHand]
      · simp only [Sys.setFd, Sys.setProc, update_self]
        exact hlive₁
      · have hne : fd' ≠ fd := by
          rintro rfl
          exact hfd h'
        simp only [Sys.setFd, Sys.setProc, update_self, update_of_ne hne, hproc]
        exact hnone' fd' h'

/-- The loop of `exit`: no descriptor is left. -/
theorem closeFiles_loop (l : List (Fin 16)) (h : Counted noHand s)
    (hlive : (s.proc i).life.isLive = true) (hrest : ∀ fd, fd ∈ l ∨ (s.proc i).ofile fd = none) :
    Sat NotFile (fun s' => Counted noHand s' ∧ Frees s s' ∧ ∀ fd, (s'.proc i).ofile fd = none)
      (l.foldlM (fun s fd =>
        match (s.proc i).ofile fd with
        | none => .ok s
        | some f => do
            let s ← fileclose env s f
            return s.setFd i fd none) s) := by
  induction l generalizing s with
  | nil => exact ⟨h, .refl s, fun fd => (hrest fd).resolve_left List.not_mem_nil⟩
  | cons fd l ih =>
    rw [List.foldlM_cons, sat_bind]
    split
    · rename_i hnone
      refine ih h hlive fun fd' => ?_
      by_cases hfd : fd' = fd
      · subst hfd
        exact .inr hnone
      · exact (hrest fd').imp_left fun hmem => List.mem_of_ne_of_mem hfd hmem
    · rename_i f hf
      rw [sat_bind]
      refine (fileclose_counted h (h.ref_pos hf le_rfl)).imp fun s₁ h₁ => ?_
      obtain ⟨hcount, hproc, hfrees⟩ := h₁
      have hlive₁ : (s₁.proc i).life.isLive = true := by
        rw [hproc]
        exact hlive
      have h₂ := hcount.setFd hlive₁ fd none
      rw [hproc, hf] at h₂
      refine (ih (h₂.congr fun g => ?_) ?_ fun fd' => ?_).imp fun s₃ h₃ =>
        ⟨h₃.1, (hfrees.trans (.setFd ..)).trans h₃.2.1, h₃.2.2⟩
      · simp [noHand]
      · simp only [Sys.setFd, Sys.setProc, update_self]
        exact hlive₁
      · simp only [Sys.setFd, Sys.setProc, update_self]
        by_cases hfd : fd' = fd
        · subst hfd
          exact .inr (update_self ..)
        · rw [update_of_ne hfd, hproc]
          exact (hrest fd').imp_left fun hmem => List.mem_of_ne_of_mem hfd hmem

/-- A process takes another form and keeps its descriptors, if it may have some. -/
theorem Counted.setProc (h : Counted hand s) {x : Proc} (hofile : x.ofile = (s.proc i).ofile)
    (hx : x.life.isLive = false → ∀ fd, (s.proc i).ofile fd = none) :
    Counted hand (s.setProc i x) := by
  refine h.of_same rfl rfl (fun j => ?_) fun j hj => ?_
  · by_cases hji : j = i
    · subst hji
      simp only [Sys.setProc, update_self]
      exact hofile
    · simp only [Sys.setProc, update_of_ne hji]
  · by_cases hji : j = i
    · subst hji
      simp only [Sys.setProc, update_self] at hj ⊢
      rw [hofile]
      exact hx hj
    · simp only [Sys.setProc, update_of_ne hji] at hj ⊢
      exact h.closed j hj

theorem fork_counted {sp : Space} (hs : Owned env s) (h : Counted noHand s)
    (hsp : s.space i = some sp) : Sat NotFile (Settled s) (fork env s i sp) := by
  have hsz := hs.small i sp (by rw [life_of_space hsp]; rfl)
  unfold fork
  rw [sat_bind]
  refine (allocproc_spec s).imp fun r hr => ?_
  obtain ⟨np, s₁⟩ := r
  obtain ⟨m, rfl, hm⟩ := hr
  cases np with
  | none => exact ⟨h.setKmem m, fun p hp => .inl hp⟩
  | some np =>
    obtain ⟨j, kstack⟩ := np
    obtain ⟨hunused, hm⟩ := hm
    dsimp only
    rw [sat_bind, sat_mem]
    refine ((copyuvm_owns env.layout hsz.2.le fun q => ?_).weaken fun _ => VmFault.notFile).mono
      fun o m₂ _ => ?_
    · have hle := hs.sole q
      simp only [Sys.owners, ← hm q] at hle
      exact (Nat.le_add_right ..).trans ((Nat.le_add_right ..).trans hle)
    cases o with
    | none =>
      dsimp only
      rw [sat_bind, sat_mem]
      exact wp_kfree (.inl ⟨by decide, by decide⟩) ⟨h.setKmem _, fun p hp => .inl hp⟩
    | some d =>
      dsimp only
      rw [sat_bind]
      have hnone := h.closed j (by rw [hunused]; rfl)
      have h₂ := (h.setKmem m₂).setProc (i := j)
        (x := ⟨.live ⟨kstack, d, sp.sz⟩, some i, (s.proc j).ofile⟩) rfl fun hx => by cases hx
      refine (dupFiles_loop _ (List.nodup_finRange 16) h₂ ?_ fun fd _ => ?_).imp
        fun s₃ h₃ => ⟨h₃.1, h₃.2.pipes⟩
      · simp only [Sys.setProc, update_self]
        rfl
      · simp only [Sys.setProc, update_self]
        exact hnone fd

theorem sysExec_counted {sp : Space} (hs : Owned env s) (h : Counted noHand s)
    (hsp : s.space i = some sp) (image : Option Image) (argv : Argv) :
    Sat NotFile (Settled s) (sysExec env s i sp image argv) := by
  have hle := hs.life_owns i
  simp only [life_of_space hsp, Life.owns, Space.owns] at hle
  unfold sysExec
  rw [sat_bind, sat_mem]
  refine ((exec_owns env.layout sp.pgdir image argv fun q => ?_).weaken
    fun _ => VmFault.notFile).mono fun o m _ => ?_
  · have hq := hle q
    omega
  cases o with
  | none => exact ⟨h.setKmem m, fun p hp => .inl hp⟩
  | some r => exact ⟨(h.setKmem m).setProc rfl fun hx => (by cases hx), fun p hp => .inl hp⟩

theorem sysSbrk_counted {sp : Space} (hs : Owned env s) (h : Counted noHand s)
    (hsp : s.space i = some sp) (n : ℤ) : Sat NotFile (Settled s) (sysSbrk env s i sp n) := by
  have hle := hs.life_owns i
  simp only [life_of_space hsp, Life.owns, Space.owns] at hle
  unfold sysSbrk
  rw [sat_bind, sat_mem]
  refine ((growproc_owns (hs.small i sp (by rw [life_of_space hsp]; rfl)) n fun q => ?_).weaken
    fun _ => VmFault.notFile).mono fun r m _ => ?_
  · have hq := hle q
    omega
  · exact ⟨(h.setKmem m).setProc rfl fun hx => (by cases hx), fun p hp => .inl hp⟩

theorem reparent_counted (h : Counted hand s) (i : Fin 64) : Counted hand (reparent s i) := by
  have hproc : ∀ j, ((reparent s i).proc j).ofile = (s.proc j).ofile ∧
      ((reparent s i).proc j).life = (s.proc j).life := by
    intro j
    simp only [reparent]
    split <;> exact ⟨rfl, rfl⟩
  refine h.of_same rfl rfl (fun j => (hproc j).1) fun j hj => ?_
  rw [(hproc j).2] at hj
  rw [(hproc j).1]
  exact h.closed j hj

theorem exit_counted {sp : Space} (h : Counted noHand s) (hsp : s.space i = some sp) :
    Sat NotFile (Settled s) (exit env s i sp) := by
  unfold exit
  split
  · exact (sat_error _).mpr (by decide)
  rw [sat_bind]
  refine (closeFiles_loop _ h (isLive_of_space hsp) fun fd => .inl (List.mem_finRange fd)).imp
    fun s₁ h₁ => ?_
  obtain ⟨hcount, hfrees, hnone⟩ := h₁
  refine ⟨(reparent_counted hcount i).setProc rfl fun _ fd => ?_, hfrees.pipes⟩
  simp only [reparent]
  split <;> exact hnone fd

theorem wait_counted (hs : Owned env s) (h : Counted noHand s) (i : Fin 64) :
    Sat NotFile (Settled s) (wait env s i) := by
  unfold wait
  split
  · exact ⟨h, fun p hp => .inl hp⟩
  rename_i j sp hj
  have hlife := life_of_found hj
  have hle := hs.life_owns j
  simp only [hlife, Life.owns, Space.owns] at hle
  rw [sat_bind, sat_mem]
  refine wp_kfree (.inl ⟨by decide, by decide⟩) ?_
  dsimp only
  rw [sat_bind, sat_mem]
  refine ((freevm_owns sp.pgdir fun q => ?_).weaken fun _ => VmFault.notFile).mono fun _ m _ => ?_
  · have hq := hle q
    rw [free_freed]
    omega
  · refine ⟨(h.setKmem m).setProc rfl fun _ => h.closed j ?_, fun p hp => .inl hp⟩
    rw [hlife]
    rfl

/-! ## Runs -/

/-- **The calls keep the counts**, and meet none of the panics of `file.c`. -/
theorem call_counted {sp : Space} (hs : Owned env s) (h : Counted noHand s)
    (hsp : s.space i = some sp) (c : Call) : Sat NotFile (Settled s) (call env s i sp c) := by
  cases c with
  | fork => exact fork_counted hs h hsp
  | exec image argv => exact sysExec_counted hs h hsp image argv
  | sbrk n => exact sysSbrk_counted hs h hsp n.toInt
  | exit => exact exit_counted h hsp
  | wait => exact wait_counted hs h i
  | pipe => exact sysPipe_counted hs h hsp
  | close fd => exact sysClose_counted h hsp fd
  | dup fd => exact sysDup_counted h hsp fd
  | openFile ip omode => exact sysOpen_counted h hsp ip omode

theorem counted_step {a : Fin 64 × Call} (hs : Owned env s ∧ Counted noHand s)
    (h : step env s a = some s') : Owned env s' ∧ Counted noHand s' := by
  obtain ⟨sp, b, hsp, hcall⟩ := step_eq_some.mp h
  exact ⟨(call_owned hs.1 hsp a.2).of_ok hcall, ((call_counted hs.1 hs.2 hsp a.2).of_ok hcall).1⟩

theorem counted_boot (h : boot env = .ok s) : Counted noHand s := by
  obtain ⟨r, m, -, rfl⟩ := boot_eq_ok.mp h
  have hofile : ∀ (j : Fin 64) (fd),
      (if j = initproc then (⟨.live r.2.2, none, fun _ => none⟩ : Proc)
        else ⟨.unused, none, fun _ => none⟩).ofile fd = none := by
    intro j fd
    split <;> rfl
  refine ⟨fun f => ?_, fun _ _ => rfl, fun p w => ?_, fun p x hx => ?_, fun j _ => hofile j⟩
  · simp [Sys.refs, Proc.refs, hofile, noHand]
  · simp [Sys.ends, File.isEnd, Pipe.isOpen]
  · cases hx

/-- The descriptors of live processes that point to `f`. -/
def Sys.slots (s : Sys) (f : Fin 100) : Finset (Fin 64 × Fin 16) :=
  {x | (s.proc x.1).life.isLive = true ∧ (s.proc x.1).ofile x.2 = some f}

/-- The file table and the pipes agree with the descriptors, and stay so. -/
structure FilesRight (env : Env) (s : Sys) : Prop where
  /-- `ref` is the number of descriptors. -/
  refs : ∀ f, (s.file f).ref = (s.slots f).card
  /-- An entry that is not in use has type `FD_NONE`. -/
  idle : ∀ f, (s.file f).ref = 0 → (s.file f).kind = .none
  /-- `readopen` is set while a file in use is the read end. -/
  readopen : ∀ p, (∃ x, s.pipe p = some x ∧ x.readopen = true) ↔
    ∃ f, 0 < (s.file f).ref ∧ (s.file f).kind = .pipe p ∧ (s.file f).writable = false
  /-- `writeopen` is set while a file in use is the write end. -/
  writeopen : ∀ p, (∃ x, s.pipe p = some x ∧ x.writeopen = true) ↔
    ∃ f, 0 < (s.file f).ref ∧ (s.file f).kind = .pipe p ∧ (s.file f).writable = true
  /-- A pipe has an open end. -/
  alive : ∀ p x, s.pipe p = some x → x.readopen = true ∨ x.writeopen = true
  /-- The page of a pipe is not free. -/
  held : ∀ p, (s.pipe p).isSome → s.kmem.free p = 0
  /-- A call after which a pipe is gone has freed its page, and once. -/
  freed : ∀ a s', step env s a = some s' → ∀ p, (s.pipe p).isSome → s'.pipe p = none →
    s'.kmem.free p = 1
  /-- No call meets a panic of `file.c`, or closes a pipe that is gone. -/
  noPanic : ∀ i sp c, s.space i = some sp → Sat NotFile (fun _ => True) (call env s i sp c)

/-- Files and processes only: what is open is counted. -/
theorem Counted.card_slots (h : Counted noHand s) (f : Fin 100) :
    (s.file f).ref = (s.slots f).card := by
  have hf := h.refs f
  have hcard : (s.slots f).card = s.refs f := by
    rw [Sys.slots, Finset.card_filter, Fintype.sum_prod_type, Sys.refs]
    refine Finset.sum_congr rfl fun j _ => Finset.sum_congr rfl fun fd _ => ?_
    cases hlive : (s.proc j).life.isLive with
    | true => simp [points]
    | false => simp [points, h.closed j hlive fd]
  simp only [noHand] at hf
  omega

/-- An end of a pipe is open exactly while a file is that end. -/
theorem Counted.flag_iff (h : Counted noHand s) (p : Page) (w : Bool) :
    (∃ x, s.pipe p = some x ∧ x.flag w = true) ↔
      ∃ f, 0 < (s.file f).ref ∧ (s.file f).kind = .pipe p ∧ (s.file f).writable = w := by
  constructor
  · rintro ⟨x, hx, hflag⟩
    have hends := h.ends p w
    rw [hx, Pipe.isOpen, if_pos hflag] at hends
    obtain ⟨f, -, hf⟩ := Finset.exists_ne_zero_of_sum_ne_zero (hends.trans_ne Nat.one_ne_zero)
    have hend : (s.file f).kind = .pipe p ∧ (s.file f).writable = w := by
      by_contra hnot
      exact hf (if_neg hnot)
    refine ⟨f, Nat.pos_of_ne_zero fun hzero => ?_, hend⟩
    have hnone := h.idle f hzero
    rw [hend.1] at hnone
    cases hnone
  · rintro ⟨f, -, hk, hw⟩
    exact h.flag_of_end hk hw

theorem Counted.filesRight (hs : Owned env s) (h : Counted noHand s) : FilesRight env s where
  refs := h.card_slots
  idle := h.idle
  readopen p := h.flag_iff p false
  writeopen p := h.flag_iff p true
  alive := h.alive
  held p hp := by
    by_contra hpos
    rw [pipe_eq_none_of_free hs (Nat.pos_of_ne_zero hpos)] at hp
    cases hp
  freed a s' hst p hp hnone := by
    obtain ⟨sp, b, hsp, hcall⟩ := step_eq_some.mp hst
    have hkept := ((call_counted hs h hsp a.2).of_ok hcall).2 p hp
    have hmem : p ∈ s'.kmem.freelist := by
      refine hkept.resolve_left ?_
      rw [hnone]
      exact Bool.false_ne_true
    have hle := ((owned_step hs hst).sole p).trans (room_le_one env p)
    have hpos : 0 < s'.kmem.free p := List.count_pos_iff.mpr hmem
    simp only [Sys.owners] at hle
    omega
  noPanic i sp c hsp := (call_counted hs h hsp c).imp fun _ _ => trivial

/-- **Reference counts of open files.**  After every run of calls from boot, the counts of
the file table are the numbers of descriptors, the flags of a pipe say which of its ends are
open, a pipe's page is freed once, when both are closed, and no panic of `file.c` is near. -/
theorem file_refs {s₀ : Sys} {acts : List (Fin 64 × Call)} (hboot : boot env = .ok s₀)
    (hrun : Machine.exec (step env) s₀ acts = some s) : FilesRight env s := by
  have h₀ : Owned env s₀ ∧ Counted noHand s₀ := ⟨owned_boot.of_ok hboot, counted_boot hboot⟩
  have h := exec_invariant (fun s a s' hs _ hst => counted_step hs hst) h₀ along_true hrun
  exact h.2.filesRight h.1

/-- The first process opens the console, as `init` does, and makes two more descriptors. -/
theorem file_refs_smallKernel : ∃ s₀ s, boot smallKernel = .ok s₀ ∧
    Machine.exec (step smallKernel) s₀
      [(initproc, .openFile (some 2) O_RDWR), (initproc, .dup 0), (initproc, .dup 0)] = some s ∧
    (s.file 0).ref = 3 ∧ FilesRight smallKernel s := by
  obtain ⟨s₀, hboot⟩ := boot_ok smallKernel (fun _ _ => rfl) (by decide)
  have hrun : ∃ s, Machine.exec (step smallKernel) s₀ [(initproc, .openFile (some 2) O_RDWR),
      (initproc, .dup 0), (initproc, .dup 0)] = some s ∧ (s.file 0).ref = 3 := by
    obtain ⟨r, m, -, rfl⟩ := boot_eq_ok.mp hboot
    exact ⟨_, rfl, rfl⟩
  obtain ⟨s, hrun, href⟩ := hrun
  exact ⟨s₀, s, hboot, hrun, href, file_refs hboot hrun⟩

end Xv6.Vm
