import Xv6.Sh.Grammar
import Xv6.Sh.Run

/-!
# The wiring of pipelines

Whatever processes do in between, a leaf of a command is executed with descriptors 0, 1 and 2,
the sides of a `PIPE` node start with the ends of its pipe, and the write end stays with the
left side.

## Main definitions

* `Pc.Local` — what the descriptors of a process are, by where it stands.
* `Mark` — how a process takes part in a `PIPE` node.
* `Good` — what holds of a process.

## Main results

* `good_step` — every step keeps what holds of all processes.
* `pipeline_wiring` — the result for the commands of the parser.
-/

namespace Xv6.Sh

open Function Machine Outcome

/-! ## Descriptors -/

/-- At most the first five descriptors are open. -/
def tab (x₀ x₁ x₂ x₃ x₄ : Option File) : Fds
  | 0 => x₀
  | 1 => x₁
  | 2 => x₂
  | 3 => x₃
  | 4 => x₄
  | _ => none

section Tab

variable (x₀ x₁ x₂ x₃ x₄ y : Option File)

theorem update_tab_zero : update (tab x₀ x₁ x₂ x₃ x₄) 0 y = tab y x₁ x₂ x₃ x₄ := by
  funext i
  match i with
  | 0 | 1 | 2 | 3 | 4 | _ + 5 => rfl

theorem update_tab_one : update (tab x₀ x₁ x₂ x₃ x₄) 1 y = tab x₀ y x₂ x₃ x₄ := by
  funext i
  match i with
  | 0 | 1 | 2 | 3 | 4 | _ + 5 => rfl

theorem update_tab_three : update (tab x₀ x₁ x₂ x₃ x₄) 3 y = tab x₀ x₁ x₂ y x₄ := by
  funext i
  match i with
  | 0 | 1 | 2 | 3 | 4 | _ + 5 => rfl

theorem update_tab_four : update (tab x₀ x₁ x₂ x₃ x₄) 4 y = tab x₀ x₁ x₂ x₃ y := by
  funext i
  match i with
  | 0 | 1 | 2 | 3 | 4 | _ + 5 => rfl

variable (f a b d : File)

theorem fdalloc_tab_zero :
    fdalloc (tab none x₁ x₂ x₃ x₄) f = some (0, tab (some f) x₁ x₂ x₃ x₄) :=
  congrArg (fun fds => some (0, fds)) (update_tab_zero ..)

theorem fdalloc_tab_one :
    fdalloc (tab (some a) none x₂ x₃ x₄) f = some (1, tab (some a) (some f) x₂ x₃ x₄) :=
  congrArg (fun fds => some (1, fds)) (update_tab_one ..)

theorem pipe_tab (n : ℕ) : pipe (tab (some a) (some b) (some d) none none) n =
    some (3, 4, tab (some a) (some b) (some d) (some (.read n)) (some (.write n))) := by
  have hread : fdalloc (tab (some a) (some b) (some d) none none) (.read n) =
      some (3, tab (some a) (some b) (some d) (some (.read n)) none) :=
    congrArg (fun fds => some (3, fds)) (update_tab_three ..)
  have hwrite : fdalloc (tab (some a) (some b) (some d) (some (.read n)) none) (.write n) =
      some (4, tab (some a) (some b) (some d) (some (.read n)) (some (.write n))) :=
    congrArg (fun fds => some (4, fds)) (update_tab_four ..)
  simp [pipe, hread, hwrite]

theorem dup_tab_zero (f : File) : dup (tab none x₁ x₂ (some f) x₄) 3 =
    tab (some f) x₁ x₂ (some f) x₄ := by
  simp only [dup, tab, fdalloc_tab_zero]

theorem dup_tab_one (a f : File) : dup (tab (some a) none x₂ x₃ (some f)) 4 =
    tab (some a) (some f) x₂ x₃ (some f) := by
  simp only [dup, tab, fdalloc_tab_one]

theorem close_tab_zero : close (tab x₀ x₁ x₂ x₃ x₄) 0 = tab none x₁ x₂ x₃ x₄ := update_tab_zero ..

theorem close_tab_one : close (tab x₀ x₁ x₂ x₃ x₄) 1 = tab x₀ none x₂ x₃ x₄ := update_tab_one ..

theorem close_tab_three : close (tab x₀ x₁ x₂ x₃ x₄) 3 = tab x₀ x₁ x₂ none x₄ :=
  update_tab_three ..

theorem close_tab_four : close (tab x₀ x₁ x₂ x₃ x₄) 4 = tab x₀ x₁ x₂ x₃ none := update_tab_four ..

end Tab

theorem tab_of_open {fds : Fds} (h : ∀ fd, (fds fd).isSome ↔ fd < 3) :
    ∃ a b d, fds = tab (some a) (some b) (some d) none none := by
  obtain ⟨a, ha⟩ := Option.isSome_iff_exists.mp ((h 0).mpr (by decide))
  obtain ⟨b, hb⟩ := Option.isSome_iff_exists.mp ((h 1).mpr (by decide))
  obtain ⟨d, hd⟩ := Option.isSome_iff_exists.mp ((h 2).mpr (by decide))
  refine ⟨a, b, d, funext fun i => ?_⟩
  match i with
  | 0 => exact ha
  | 1 => exact hb
  | 2 => exact hd
  | i + 3 =>
    have hnone : ¬ (fds (i + 3)).isSome := fun hsome => by
      have := (h (i + 3)).mp hsome
      omega
    rw [Option.not_isSome_iff_eq_none.mp hnone]
    match i with
    | 0 | 1 | _ + 2 => rfl

/-- All files that one table has, another one has, apart from files that are no pipes. -/
def Keeps (fds fds' : Fds) : Prop :=
  ∀ fd f, fds' fd = some f → (∃ fd', fds fd' = some f) ∨ ∃ name mode, f = .inode name mode

theorem keeps_refl (fds : Fds) : Keeps fds fds := fun fd _ h => .inl ⟨fd, h⟩

theorem keeps_close (fds : Fds) (fd : ℕ) : Keeps fds (close fds fd) := by
  intro i f h
  by_cases hi : i = fd
  · subst hi
    simp [close] at h
  · rw [close, update_of_ne hi] at h
    exact .inl ⟨i, h⟩

theorem fdalloc_cases {fds fds' : Fds} {f g : File} {fd i : ℕ} (h : fdalloc fds f = some (fd, fds'))
    (hg : fds' i = some g) : g = f ∨ ∃ j, fds j = some g := by
  unfold fdalloc at h
  cases hfind : (List.range NOFILE).find? fun fd => (fds fd).isNone with
  | none => simp [hfind] at h
  | some k =>
    rw [hfind] at h
    obtain ⟨rfl, rfl⟩ : k = fd ∧ update fds k (some f) = fds' := by simpa using h
    by_cases hi : i = k
    · subst hi
      rw [update_self] at hg
      exact .inl (Option.some.inj hg).symm
    · rw [update_of_ne hi] at hg
      exact .inr ⟨i, hg⟩

theorem keeps_dup (fds : Fds) (fd : ℕ) : Keeps fds (dup fds fd) := by
  unfold dup
  split
  · exact keeps_refl fds
  · rename_i f hf
    split
    · exact keeps_refl fds
    · rename_i k fds' halloc
      intro i g hg
      rcases fdalloc_cases halloc hg with rfl | hj
      · exact .inl ⟨fd, hf⟩
      · exact .inl hj

theorem keeps_inode {fds fds' : Fds} {name : List Char} {mode fd : ℕ}
    (h : fdalloc fds (.inode name mode) = some (fd, fds')) : Keeps fds fds' := by
  intro i g hg
  rcases fdalloc_cases h hg with rfl | hj
  · exact .inr ⟨name, mode, rfl⟩
  · exact .inl hj

theorem keeps_run (fds : Fds) (c : Sys) : Keeps fds (c.run fds) := by
  cases c with
  | close fd => exact keeps_close fds fd
  | dup fd => exact keeps_dup fds fd

/-- The files of a table with a new pipe. -/
theorem pipe_cases {fds fds' : Fds} {n p0 p1 i : ℕ} {g : File}
    (h : pipe fds n = some (p0, p1, fds')) (hg : fds' i = some g) :
    g = .read n ∨ g = .write n ∨ ∃ j, fds j = some g := by
  unfold pipe at h
  cases h0 : fdalloc fds (.read n) with
  | none => simp [h0] at h
  | some r =>
    cases h1 : fdalloc r.2 (.write n) with
    | none => simp [h0, h1] at h
    | some r' =>
      obtain ⟨q, fds₁⟩ := r'
      obtain ⟨-, -, rfl⟩ : r.1 = p0 ∧ q = p1 ∧ fds₁ = fds' := by simpa [h0, h1] using h
      rcases fdalloc_cases h1 hg with rfl | ⟨j, hj⟩
      · exact .inr (.inl rfl)
      · rcases fdalloc_cases h0 hj with rfl | hk
        · exact .inl rfl
        · exact .inr (.inr hk)

theorem pipe_bound {fds fds' : Fds} {n p0 p1 : ℕ} (h : pipe fds n = some (p0, p1, fds'))
    (hfds : ∀ fd m, fds fd = some (.read m) ∨ fds fd = some (.write m) → m < n) :
    ∀ fd m, fds' fd = some (.read m) ∨ fds' fd = some (.write m) → m < n + 1 := by
  intro fd m hfd
  have hold : ∀ g, fds' fd = some g → g = .read m ∨ g = .write m → m < n + 1 := by
    intro g hg hm
    rcases pipe_cases h hg with rfl | rfl | ⟨j, hj⟩
    · obtain rfl : n = m := by simpa using hm
      exact Nat.lt_succ_self _
    · obtain rfl : n = m := by simpa using hm
      exact Nat.lt_succ_self _
    · refine Nat.lt_succ_of_lt (hfds j m ?_)
      rcases hm with rfl | rfl
      · exact .inl hj
      · exact .inr hj
  rcases hfd with hfd | hfd
  · exact hold _ hfd (.inl rfl)
  · exact hold _ hfd (.inr rfl)

/-! ## Where processes stand -/

/-- Redirections are of descriptors 0 and 1. -/
def Cmd.Std {W : Type} : Cmd W → Prop
  | .exec _ => True
  | .redir cmd _ _ fd => fd < 2 ∧ cmd.Std
  | .pipe left right | .list left right => left.Std ∧ right.Std
  | .back cmd => cmd.Std

/-- The descriptors of a process, by where it stands. -/
def Pc.Local (fds : Fds) : Pc → Prop
  | .run cmd side => cmd.Std ∧ ∃ a b d, fds = tab (some a) (some b) (some d) none none ∧
      (∀ n, side = .left n → b = .write n) ∧ ∀ n, side = .right n → a = .read n
  | .exec _ => ∃ a b d, fds = tab (some a) (some b) (some d) none none
  | .opening _ _ cmd => cmd.Std ∧ ∃ a d, fds = tab none (some a) (some d) none none ∨
      fds = tab (some a) none (some d) none none
  | .waitList r => r.Std ∧ ∃ a b d, fds = tab (some a) (some b) (some d) none none
  | .forkLeft l r p0 p1 n => l.Std ∧ r.Std ∧ p0 = 3 ∧ p1 = 4 ∧ ∃ a b d,
      fds = tab (some a) (some b) (some d) (some (.read n)) (some (.write n)) ∧
        a ≠ .write n ∧ b ≠ .write n ∧ d ≠ .write n
  | .forkRight r p0 p1 n => r.Std ∧ p0 = 3 ∧ p1 = 4 ∧ ∃ a b d,
      fds = tab (some a) (some b) (some d) (some (.read n)) (some (.write n)) ∧
        a ≠ .write n ∧ b ≠ .write n ∧ d ≠ .write n
  | .left calls cmd n => cmd.Std ∧ ∃ a b d,
      calls = [.close 1, .dup 4, .close 3, .close 4] ∧
        fds = tab (some a) (some b) (some d) (some (.read n)) (some (.write n)) ∨
      calls = [.dup 4, .close 3, .close 4] ∧
        fds = tab (some a) none (some d) (some (.read n)) (some (.write n)) ∨
      calls = [.close 3, .close 4] ∧
        fds = tab (some a) (some (.write n)) (some d) (some (.read n)) (some (.write n)) ∨
      calls = [.close 4] ∧ fds = tab (some a) (some (.write n)) (some d) none (some (.write n)) ∨
      calls = [] ∧ fds = tab (some a) (some (.write n)) (some d) none none
  | .right calls cmd n => cmd.Std ∧ ∃ a b d, b ≠ .write n ∧ d ≠ .write n ∧
      (calls = [.close 0, .dup 3, .close 3, .close 4] ∧
        fds = tab (some a) (some b) (some d) (some (.read n)) (some (.write n)) ∨
      calls = [.dup 3, .close 3, .close 4] ∧
        fds = tab none (some b) (some d) (some (.read n)) (some (.write n)) ∨
      calls = [.close 3, .close 4] ∧
        fds = tab (some (.read n)) (some b) (some d) (some (.read n)) (some (.write n)) ∨
      calls = [.close 4] ∧ fds = tab (some (.read n)) (some b) (some d) none (some (.write n)) ∨
      calls = [] ∧ fds = tab (some (.read n)) (some b) (some d) none none)
  | .closing calls n => ∃ a b d, a ≠ .write n ∧ b ≠ .write n ∧ d ≠ .write n ∧
      (calls = [.close 3, .close 4] ∧
        fds = tab (some a) (some b) (some d) (some (.read n)) (some (.write n)) ∨
      calls = [.close 4] ∧ fds = tab (some a) (some b) (some d) none (some (.write n)) ∨
      calls = [] ∧ fds = tab (some a) (some b) (some d) none none)
  | .waits _ => True
  | .user => True

/-- How a process takes part in a `PIPE` node: it is the node's process, with this many calls
of `fork` to come; the left side at its start; the right side before `runcmd`, or at its
start. -/
inductive Mark
  | none
  | owner (n forks : ℕ)
  | left (n : ℕ)
  | right (n : ℕ)
  | entered (n : ℕ)

def Pc.mark : Pc → Mark
  | .run _ (.left n) => .left n
  | .run _ (.right n) => .entered n
  | .forkLeft _ _ _ _ n => .owner n 2
  | .forkRight _ _ _ n => .owner n 1
  | .closing _ n => .owner n 0
  | .left _ _ n => .left n
  | .right _ _ n => .right n
  | _ => .none

def Mark.pipe : Mark → Option ℕ
  | .none => Option.none
  | .owner n _ | .left n | .right n | .entered n => some n

/-- What the node says of process `q`. -/
def Mark.FitsAt (q : ℕ) (x : Node) : Mark → Prop
  | .none => True
  | .owner _ forks => x.owner = q ∧ x.waiting = false ∧
      (1 ≤ forks → x.right = Option.none ∧ x.entered = false) ∧ (2 ≤ forks → x.left = Option.none)
  | .left _ => x.left = some q
  | .right _ => x.right = some q ∧ x.entered = false
  | .entered _ => x.right = some q

def Mark.Fits (node : ℕ → Option Node) (q : ℕ) (m : Mark) : Prop :=
  ∀ n, m.pipe = some n → ∃ x, node n = some x ∧ m.FitsAt q x

/-- A process that has the write end for a while. -/
def Mark.Borrows (n : ℕ) : Mark → Prop
  | .owner m _ => m = n
  | .right m => m = n
  | _ => False

/-- What holds of process `q`. -/
structure Good (node : ℕ → Option Node) (nextpipe q : ℕ) (p : Proc) : Prop where
  self : q ∈ p.line
  fds : p.pc.Local p.fds
  pipes : ∀ fd n, p.fds fd = some (.read n) ∨ p.fds fd = some (.write n) → n < nextpipe
  fits : p.pc.mark.Fits node q
  holds : ∀ fd n x, p.fds fd = some (.write n) → node n = some x →
    p.pc.mark.Borrows n ∨ ∃ l, x.left = some l ∧ l ∈ p.line

structure Inv (s : State) : Prop where
  good : ∀ q p, s.procs q = some p → q < s.nextpid ∧ Good s.node s.nextpipe q p
  fresh : ∀ n, s.nextpipe ≤ n → s.node n = none

variable {node node' : ℕ → Option Node} {nextpipe q r n : ℕ} {p : Proc} {fds : Fds}
  {pc child : Pc} {s s' : State}

/-! ## One process -/

/-- A process goes on with files that it has.  It may drop its part in a node when it has no
write end. -/
theorem Good.move (h : Good node nextpipe q p) (hk : Keeps p.fds fds) (hlocal : pc.Local fds)
    (hmark : pc.mark = p.pc.mark ∨ pc.mark.Fits node q ∧
      ∀ n, p.pc.mark.Borrows n → pc.mark.Borrows n ∨ ∀ fd, fds fd ≠ some (.write n)) :
    Good node nextpipe q { p with fds := fds, pc := pc } := by
  have hold : ∀ fd f, fds fd = some f → (∃ n, f = .read n ∨ f = .write n) →
      ∃ fd', p.fds fd' = some f := by
    rintro fd f hf ⟨n, hn⟩
    rcases hk fd f hf with hfd | ⟨name, mode, rfl⟩
    · exact hfd
    · rcases hn with hn | hn <;> cases hn
  refine ⟨h.self, hlocal, fun fd n hfd => ?_, ?_, fun fd n x hfd hx => ?_⟩
  · rcases hfd with hfd | hfd
    · obtain ⟨fd', hfd'⟩ := hold fd _ hfd ⟨n, .inl rfl⟩
      exact h.pipes fd' n (.inl hfd')
    · obtain ⟨fd', hfd'⟩ := hold fd _ hfd ⟨n, .inr rfl⟩
      exact h.pipes fd' n (.inr hfd')
  · rcases hmark with hmark | hmark
    · simp only [hmark]
      exact h.fits
    · exact hmark.1
  · obtain ⟨fd', hfd'⟩ := hold fd _ hfd ⟨n, .inr rfl⟩
    rcases h.holds fd' n x hfd' hx with hb | hl
    · rcases hmark with hmark | ⟨-, hmark⟩
      · exact .inl (by simpa only [hmark] using hb)
      · rcases hmark n hb with hb' | hno
        · exact .inl hb'
        · exact absurd hfd (hno fd)
    · exact .inr hl

/-- A child that takes no part in a node, or will be a side of one. -/
theorem Good.forked (h : Good node nextpipe q p) (hlocal : child.Local p.fds)
    (hfits : child.mark.Fits node' r) (hleft : ∀ n x x', node n = some x → node' n = some x' →
      ∀ l, x.left = some l → x'.left = some l) (hold : ∀ n x', node' n = some x' → node n ≠ none)
    (hborrow : ∀ n x', p.pc.mark.Borrows n → node' n = some x' →
      child.mark.Borrows n ∨ x'.left = some r) :
    Good node' nextpipe r ⟨r :: p.line, p.fds, child⟩ := by
  refine ⟨List.mem_cons_self, hlocal, h.pipes, hfits, fun fd n x' hfd hx' => ?_⟩
  obtain ⟨x, hx⟩ := Option.ne_none_iff_exists'.mp (hold n x' hx')
  rcases h.holds fd n x hfd hx with hb | ⟨l, hl, hmem⟩
  · rcases hborrow n x' hb hx' with hb' | hr
    · exact .inl hb'
    · exact .inr ⟨r, hr, List.mem_cons_self⟩
  · exact .inr ⟨l, hleft n x x' hx hx' l hl, List.mem_cons_of_mem r hmem⟩

/-- A process that takes no part in the step that changes node `n`. -/
theorem Good.frame (h : Good node nextpipe r p) {x x' : Node} (hx : node n = some x)
    (hfits : p.pc.mark.FitsAt r x → p.pc.mark.FitsAt r x')
    (hleft : ∀ l, x.left = some l → x'.left = some l) :
    Good (update node n (some x')) nextpipe r p := by
  refine ⟨h.self, h.fds, h.pipes, fun m hm => ?_, fun fd m y hfd hy => ?_⟩
  · obtain ⟨y, hy, hyfits⟩ := h.fits m hm
    by_cases hmn : m = n
    · subst hmn
      rw [hx] at hy
      cases hy
      exact ⟨x', update_self .., hfits hyfits⟩
    · exact ⟨y, by rw [update_of_ne hmn, hy], hyfits⟩
  · by_cases hm : m = n
    · subst hm
      obtain rfl : x' = y := by simpa using hy
      rcases h.holds fd m x hfd hx with hb | ⟨l, hl, hmem⟩
      · exact .inl hb
      · exact .inr ⟨l, hleft l hl, hmem⟩
    · rw [update_of_ne hm] at hy
      exact h.holds fd m y hfd hy

/-- A new pipe is made. -/
theorem Good.newPipe (h : Good node nextpipe r p) (hfresh : node nextpipe = none)
    (y : Option Node) : Good (update node nextpipe y) (nextpipe + 1) r p := by
  refine ⟨h.self, h.fds, fun fd n hfd => ?_, fun n hn => ?_, fun fd n x hfd hx => ?_⟩
  · have := h.pipes fd n hfd
    omega
  · obtain ⟨x, hx, hfits⟩ := h.fits n hn
    have hne : n ≠ nextpipe := by
      rintro rfl
      rw [hfresh] at hx
      cases hx
    exact ⟨x, by rw [update_of_ne hne, hx], hfits⟩
  · have hn : n ≠ nextpipe := by
      have := h.pipes fd n (.inr hfd)
      omega
    rw [update_of_ne hn] at hx
    exact h.holds fd n x hfd hx

/-! ## All processes -/

/-- A step of process `q`: what is new is good, and what is not stays so. -/
theorem Inv.change (h : Inv s) (hpid : s.nextpid ≤ s'.nextpid)
    (hprocs : ∀ r p, s'.procs r = some p → r ≠ q ∧ s.procs r = some p ∨
      r < s'.nextpid ∧ Good s'.node s'.nextpipe r p)
    (hframe : ∀ r p, r ≠ q → Good s.node s.nextpipe r p → Good s'.node s'.nextpipe r p)
    (hfresh : ∀ n, s'.nextpipe ≤ n → s'.node n = none) : Inv s' := by
  refine ⟨fun r p hr => ?_, hfresh⟩
  rcases hprocs r p hr with ⟨hrq, hr'⟩ | hnew
  · obtain ⟨hlt, hgood⟩ := h.good r p hr'
    exact ⟨Nat.lt_of_lt_of_le hlt hpid, hframe r p hrq hgood⟩
  · exact hnew

theorem set_procs {p' : Proc} (h : (s.set q p).procs r = some p') :
    r ≠ q ∧ s.procs r = some p' ∨ r = q ∧ p' = p := by
  by_cases hr : r = q
  · subst hr
    simp only [State.set, update_self, Option.some.injEq] at h
    exact .inr ⟨rfl, h.symm⟩
  · simp only [State.set, update_of_ne hr] at h
    exact .inl ⟨hr, h⟩

theorem fork_procs {p' : Proc} (h : (s.fork q p pc child).procs r = some p') :
    r ≠ q ∧ s.procs r = some p' ∨ r = q ∧ p' = { p with pc := pc } ∨
      r = s.nextpid ∧ p' = ⟨s.nextpid :: p.line, p.fds, child⟩ := by
  by_cases hr : r = s.nextpid
  · subst hr
    simp only [State.fork, update_self, Option.some.injEq] at h
    exact .inr (.inr ⟨rfl, h.symm⟩)
  · simp only [State.fork, update_of_ne hr] at h
    by_cases hrq : r = q
    · subst hrq
      simp only [update_self, Option.some.injEq] at h
      exact .inr (.inl ⟨rfl, h.symm⟩)
    · rw [update_of_ne hrq] at h
      exact .inl ⟨hrq, h⟩

theorem Inv.set (h : Inv s) (hp : s.procs q = some p) {p' : Proc}
    (hgood : Good s.node s.nextpipe q p') : Inv (s.set q p') := by
  refine h.change (q := q) (Nat.le_refl _) (fun r p hr => ?_) (fun _ _ _ hr => hr) h.fresh
  rcases set_procs hr with hold | ⟨rfl, rfl⟩
  · exact .inl hold
  · exact .inr ⟨(h.good r _ hp).1, hgood⟩

theorem Inv.exit (h : Inv s) (q : ℕ) : Inv (s.exit q) := by
  refine h.change (q := q) (Nat.le_refl _) (fun r p hr => ?_) (fun _ _ _ hr => hr) h.fresh
  by_cases hrq : r = q
  · subst hrq
    simp [State.exit] at hr
  · simp only [State.exit, update_of_ne hrq] at hr
    exact .inl ⟨hrq, hr⟩

/-- A call of `fork` by a process that has no part in a node. -/
theorem Inv.fork (h : Inv s) (hp : s.procs q = some p) (hmark : ∀ n, ¬ p.pc.mark.Borrows n)
    (hpc : pc.mark = .none) (hchild : child.mark = .none) (hlocal : pc.Local p.fds)
    (hlocal' : child.Local p.fds) : Inv (s.fork q p pc child) := by
  obtain ⟨hlt, hgood⟩ := h.good q p hp
  refine h.change (q := q) (Nat.le_succ _) (fun r p' hr => ?_) (fun _ _ _ hr => hr) h.fresh
  rcases fork_procs hr with hold | ⟨rfl, rfl⟩ | ⟨rfl, rfl⟩
  · exact .inl hold
  · refine .inr ⟨Nat.lt_succ_of_lt hlt, hgood.move (keeps_refl _) hlocal (.inr ⟨?_, ?_⟩)⟩
    · rw [hpc]
      intro n hn
      cases hn
    · exact fun n hb => absurd hb (hmark n)
  · refine .inr ⟨Nat.lt_succ_self _, hgood.forked hlocal' ?_ ?_ ?_ ?_⟩
    · rw [hchild]
      intro n hn
      cases hn
    · intro n x x' hx hx' l hl
      rw [show s.node n = some x' from hx'] at hx
      cases hx
      exact hl
    · intro n x' hx' hnone
      rw [show s.node n = some x' from hx'] at hnone
      cases hnone
    · exact fun n x' hb => absurd hb (hmark n)

theorem note_node {x : Node} (hx : s.node n = some x) (f : Node → Node) :
    (s.note n f).node = update s.node n (some (f x)) := by
  simp only [State.note, hx, Option.map_some]

theorem Inv.fresh_update (h : Inv s) {x : Node} (hx : s.node n = some x) (y : Option Node) :
    ∀ m, s.nextpipe ≤ m → update s.node n y m = none := by
  intro m hm
  have hmn : m ≠ n := by
    rintro rfl
    rw [h.fresh m hm] at hx
    cases hx
  rw [update_of_ne hmn, h.fresh m hm]

/-- A process goes on, and this changes its node. -/
theorem Inv.setNote (h : Inv s) (hp : s.procs q = some p) {p' : Proc} {x : Node}
    {f : Node → Node} (hx : s.node n = some x) (hgood : Good s.node s.nextpipe q p')
    (hself : p'.pc.mark.FitsAt q x → p'.pc.mark.FitsAt q (f x))
    (hfits : ∀ r, r ≠ q → ∀ m : Mark, m.FitsAt r x → m.FitsAt r (f x))
    (hleft : (f x).left = x.left) : Inv ((s.set q p').note n f) := by
  have hnode : ((s.set q p').note n f).node = update s.node n (some (f x)) :=
    note_node (s := s.set q p') hx f
  refine h.change (q := q) (Nat.le_refl _) (fun r p hr => ?_) (fun r p hrq hr => ?_) ?_
  · rcases set_procs (show (s.set q p').procs r = some p from hr) with hold | ⟨rfl, rfl⟩
    · exact .inl hold
    · refine .inr ⟨(h.good r _ hp).1, ?_⟩
      rw [hnode]
      exact hgood.frame hx hself fun l hl => hleft.trans hl
  · rw [hnode]
    exact hr.frame hx (hfits r hrq _) fun l hl => hleft.trans hl
  · rw [hnode]
    exact h.fresh_update hx _

/-- A call of `fork` by the process of a node. -/
theorem Inv.forkNote (h : Inv s) (hp : s.procs q = some p) {x : Node} {f : Node → Node}
    (hx : s.node n = some x) (hgood : Good s.node s.nextpipe q { p with pc := pc })
    (hself : pc.mark.FitsAt q (f x))
    (hfits : ∀ r, r ≠ q → ∀ m : Mark, m.FitsAt r x → m.FitsAt r (f x))
    (hleft : ∀ l, x.left = some l → (f x).left = some l) (hlocal : child.Local p.fds)
    (hpipe : child.mark.pipe = some n) (hchild : child.mark.FitsAt s.nextpid (f x))
    (hborrow : ∀ m, p.pc.mark.Borrows m →
      m = n ∧ (child.mark.Borrows n ∨ (f x).left = some s.nextpid)) :
    Inv ((s.fork q p pc child).note n f) := by
  have hnode : ((s.fork q p pc child).note n f).node = update s.node n (some (f x)) :=
    note_node (s := s.fork q p pc child) hx f
  obtain ⟨hlt, hold⟩ := h.good q p hp
  refine h.change (q := q) (Nat.le_succ _) (fun r p' hr => ?_) (fun r p' hrq hr => ?_) ?_
  · rcases fork_procs (show (s.fork q p pc child).procs r = some p' from hr) with
      hsame | ⟨rfl, rfl⟩ | ⟨rfl, rfl⟩
    · exact .inl hsame
    · refine .inr ⟨Nat.lt_succ_of_lt hlt, ?_⟩
      rw [hnode]
      exact hgood.frame hx (fun _ => hself) hleft
    · refine .inr ⟨Nat.lt_succ_self _, ?_⟩
      rw [hnode]
      refine hold.forked hlocal ?_ ?_ ?_ ?_
      · intro m hm
        obtain rfl : n = m := Option.some.inj (hpipe.symm.trans hm)
        exact ⟨f x, update_self .., hchild⟩
      · intro m y y' hy hy' l hl
        by_cases hm : m = n
        · subst hm
          rw [hx] at hy
          cases hy
          obtain rfl : f x = y' := by simpa using hy'
          exact hleft l hl
        · rw [update_of_ne hm, hy] at hy'
          cases hy'
          exact hl
      · intro m y' hy' hnone
        by_cases hm : m = n
        · subst hm
          rw [hx] at hnone
          cases hnone
        · rw [update_of_ne hm, hnone] at hy'
          cases hy'
      · intro m y' hb hy'
        obtain ⟨rfl, hb⟩ := hborrow m hb
        obtain rfl : f x = y' := by simpa using hy'
        exact hb
  · rw [hnode]
    exact hr.frame hx (hfits r hrq _) hleft
  · rw [hnode]
    exact h.fresh_update hx _

/-! ## Calls in a row -/

variable {c : Sys} {calls : List Sys} {cmd : Command}

theorem left_call (h : (Pc.left (c :: calls) cmd n).Local fds) :
    (Pc.left calls cmd n).Local (c.run fds) := by
  obtain ⟨hstd, a, b, d, h⟩ := h
  refine ⟨hstd, a, b, d, ?_⟩
  rcases h with ⟨hc, rfl⟩ | ⟨hc, rfl⟩ | ⟨hc, rfl⟩ | ⟨hc, rfl⟩ | ⟨hc, rfl⟩
  · cases hc
    exact .inr (.inl ⟨rfl, close_tab_one ..⟩)
  · cases hc
    exact .inr (.inr (.inl ⟨rfl, dup_tab_one ..⟩))
  · cases hc
    exact .inr (.inr (.inr (.inl ⟨rfl, close_tab_three ..⟩)))
  · cases hc
    exact .inr (.inr (.inr (.inr ⟨rfl, close_tab_four ..⟩)))
  · cases hc

theorem right_call (h : (Pc.right (c :: calls) cmd n).Local fds) :
    (Pc.right calls cmd n).Local (c.run fds) := by
  obtain ⟨hstd, a, b, d, hb, hd, h⟩ := h
  refine ⟨hstd, a, b, d, hb, hd, ?_⟩
  rcases h with ⟨hc, rfl⟩ | ⟨hc, rfl⟩ | ⟨hc, rfl⟩ | ⟨hc, rfl⟩ | ⟨hc, rfl⟩
  · cases hc
    exact .inr (.inl ⟨rfl, close_tab_zero ..⟩)
  · cases hc
    exact .inr (.inr (.inl ⟨rfl, dup_tab_zero ..⟩))
  · cases hc
    exact .inr (.inr (.inr (.inl ⟨rfl, close_tab_three ..⟩)))
  · cases hc
    exact .inr (.inr (.inr (.inr ⟨rfl, close_tab_four ..⟩)))
  · cases hc

theorem closing_call (h : (Pc.closing (c :: calls) n).Local fds) :
    (Pc.closing calls n).Local (c.run fds) := by
  obtain ⟨a, b, d, ha, hb, hd, h⟩ := h
  refine ⟨a, b, d, ha, hb, hd, ?_⟩
  rcases h with ⟨hc, rfl⟩ | ⟨hc, rfl⟩ | ⟨hc, rfl⟩
  · cases hc
    exact .inr (.inl ⟨rfl, close_tab_three ..⟩)
  · cases hc
    exact .inr (.inr ⟨rfl, close_tab_four ..⟩)
  · cases hc

theorem left_done (h : (Pc.left [] cmd n).Local fds) : (Pc.run cmd (.left n)).Local fds := by
  obtain ⟨hstd, a, b, d, h⟩ := h
  obtain rfl : fds = tab (some a) (some (.write n)) (some d) none none := by simpa using h
  refine ⟨hstd, a, .write n, d, rfl, fun m hm => ?_, fun m hm => by cases hm⟩
  cases hm
  rfl

theorem tab_ne_write {a b d : File} (ha : a ≠ .write n) (hb : b ≠ .write n) (hd : d ≠ .write n)
    (fd : ℕ) : tab (some a) (some b) (some d) none none fd ≠ some (.write n) := by
  match fd with
  | 0 => simpa [tab] using ha
  | 1 => simpa [tab] using hb
  | 2 => simpa [tab] using hd
  | 3 | 4 | _ + 5 => simp [tab]

theorem right_done (h : (Pc.right [] cmd n).Local fds) :
    (Pc.run cmd (.right n)).Local fds ∧ ∀ fd, fds fd ≠ some (.write n) := by
  obtain ⟨hstd, a, b, d, hb, hd, h⟩ := h
  obtain rfl : fds = tab (some (.read n)) (some b) (some d) none none := by simpa using h
  refine ⟨⟨hstd, .read n, b, d, rfl, (fun m hm => by cases hm), fun m hm => ?_⟩, ?_⟩
  · cases hm
    rfl
  · exact tab_ne_write (by simp) hb hd

theorem closing_done (h : (Pc.closing [] n).Local fds) : ∀ fd, fds fd ≠ some (.write n) := by
  obtain ⟨a, b, d, ha, hb, hd, h⟩ := h
  obtain rfl : fds = tab (some a) (some b) (some d) none none := by simpa using h
  exact tab_ne_write ha hb hd

/-! ## Steps -/

theorem mark_run_borrows (cmd : Command) (side : Side) (n : ℕ) :
    ¬ (Pc.run cmd side).mark.Borrows n := by
  cases side <;> exact id

theorem fits_none {m : Mark} (h : m = .none) : m.Fits node q := by
  subst h
  intro n hn
  cases hn

/-- A process that has no part in a node goes on without one. -/
theorem Good.plain (h : Good node nextpipe q p) (hk : Keeps p.fds fds) (hlocal : pc.Local fds)
    (hmark : pc.mark = .none) (hb : ∀ n, ¬ p.pc.mark.Borrows n) :
    Good node nextpipe q { p with fds := fds, pc := pc } :=
  h.move hk hlocal (.inr ⟨fits_none hmark, fun n hn => absurd hn (hb n)⟩)

/-- The `switch` of `runcmd`. -/
theorem Inv.run {line : List ℕ} {side : Side} (h : Inv s)
    (hp : s.procs q = some ⟨line, fds, .run cmd side⟩) (ok : Bool) :
    Inv (go s q ⟨line, fds, .run cmd side⟩ ok) := by
  obtain ⟨hlt, hgood⟩ := h.good q _ hp
  obtain ⟨hstd, a, b, d, rfl, -, -⟩ := hgood.fds
  have hb := mark_run_borrows cmd side
  cases cmd with
  | exec argv =>
    cases argv with
    | nil => exact h.exit q
    | cons w argv => exact h.set hp (hgood.plain (keeps_refl _) ⟨a, b, d, rfl⟩ rfl hb)
  | redir cmd file mode fd =>
    obtain ⟨hfd, hstd⟩ := hstd
    refine h.set hp (hgood.plain (keeps_close _ _) ⟨hstd, ?_⟩ rfl hb)
    match fd, hfd with
    | 0, _ => exact ⟨b, d, .inl (close_tab_zero ..)⟩
    | 1, _ => exact ⟨a, d, .inr (close_tab_one ..)⟩
  | list left right =>
    simp only [go]
    split
    · exact h.fork hp hb rfl rfl ⟨hstd.2, a, b, d, rfl⟩
        ⟨hstd.1, a, b, d, rfl, (fun n hn => by cases hn), fun n hn => by cases hn⟩
    · exact h.exit q
  | back cmd =>
    simp only [go]
    split
    · exact h.fork hp hb rfl rfl trivial
        ⟨hstd, a, b, d, rfl, (fun n hn => by cases hn), fun n hn => by cases hn⟩
    · exact h.exit q
  | pipe left right =>
    simp only [go, pipe_tab]
    split
    · -- the new pipe is in no table
      have hnew : ∀ fd f, tab (some a) (some b) (some d) none none fd = some f →
          f ≠ .write s.nextpipe := by
        rintro fd f hf rfl
        exact Nat.lt_irrefl _ (hgood.pipes fd s.nextpipe (.inr hf))
      refine h.change (q := q) (Nat.le_refl _) (fun r p hr => ?_) (fun r p _ hr => ?_) ?_
      · rcases set_procs hr with hold | ⟨rfl, rfl⟩
        · exact .inl hold
        · refine .inr ⟨hlt, hgood.self, ?_,
            pipe_bound (pipe_tab a b d s.nextpipe) hgood.pipes, ?_, fun fd n x hfd hx => ?_⟩
          · exact ⟨hstd.1, hstd.2, rfl, rfl, a, b, d, rfl, hnew 0 a rfl, hnew 1 b rfl,
              hnew 2 d rfl⟩
          · intro n hn
            cases hn
            exact ⟨_, update_self .., rfl, rfl, fun _ => ⟨rfl, rfl⟩, fun _ => rfl⟩
          · by_cases hn : s.nextpipe = n
            · exact .inl hn
            · rcases pipe_cases (pipe_tab a b d s.nextpipe) hfd with heq | heq | ⟨j, hj⟩
              · cases heq
              · cases heq
                exact absurd rfl hn
              · have hx' : s.node n = some x := by
                  rw [← hx]
                  exact (update_of_ne (Ne.symm hn) _ _).symm
                rcases hgood.holds j n x hj hx' with hborrow | hleft
                · exact absurd hborrow (hb n)
                · exact .inr hleft
      · exact hr.newPipe (h.fresh _ (Nat.le_refl _)) _
      · intro n hn
        have hne : n ≠ s.nextpipe := by
          rintro rfl
          exact absurd hn (Nat.not_succ_le_self _)
        show update s.node s.nextpipe _ n = none
        rw [update_of_ne hne]
        exact h.fresh n (Nat.le_of_succ_le hn)
    · exact h.exit q

/-- A call of the process of a `PIPE` node, or of one of its children. -/
theorem Inv.call {line : List ℕ} (h : Inv s) (hp : s.procs q = some ⟨line, fds, pc⟩) (ok : Bool)
    (hpc : ∀ cmd side, pc ≠ .run cmd side) : Inv (go s q ⟨line, fds, pc⟩ ok) := by
  obtain ⟨hlt, hgood⟩ := h.good q _ hp
  have hlocal := hgood.fds
  cases pc with
  | run cmd side => exact absurd rfl (hpc cmd side)
  | exec argv =>
    simp only [go]
    split
    · exact h.set hp (hgood.plain (keeps_refl _) trivial rfl fun _ hb => hb)
    · exact h.exit q
  | opening file mode cmd =>
    obtain ⟨hstd, a, d, rfl | rfl⟩ := hlocal
    · have halloc := fdalloc_tab_zero (some a) (some d) none none (.inode file mode)
      simp only [go, halloc]
      split
      · refine h.set hp (hgood.plain (keeps_inode halloc) ⟨hstd, _, a, d, rfl, ?_, ?_⟩ rfl
          fun _ hb => hb)
        · exact fun n hn => by cases hn
        · exact fun n hn => by cases hn
      · exact h.exit q
    · have halloc := fdalloc_tab_one (some d) none none (.inode file mode) a
      simp only [go, halloc]
      split
      · refine h.set hp (hgood.plain (keeps_inode halloc) ⟨hstd, a, _, d, rfl, ?_, ?_⟩ rfl
          fun _ hb => hb)
        · exact fun n hn => by cases hn
        · exact fun n hn => by cases hn
      · exact h.exit q
  | waitList right =>
    obtain ⟨hstd, a, b, d, rfl⟩ := hlocal
    refine h.set hp (hgood.plain (keeps_refl _) ⟨hstd, a, b, d, rfl, ?_, ?_⟩ rfl fun _ hb => hb)
    · exact fun n hn => by cases hn
    · exact fun n hn => by cases hn
  | forkLeft left right p0 p1 n =>
    obtain ⟨hleft, hright, rfl, rfl, a, b, d, rfl, hne⟩ := hlocal
    obtain ⟨x, hx, howner, hwaiting, hforks, hnone⟩ := hgood.fits n rfl
    have hnone := hnone (Nat.le_refl 2)
    have hforks := hforks (by decide)
    simp only [go]
    split
    · refine h.forkNote hp hx (hgood.move (keeps_refl _) ⟨hright, rfl, rfl, a, b, d, rfl, hne⟩
        (.inr ⟨?_, fun m hm => .inl hm⟩)) ⟨howner, hwaiting, fun _ => hforks, ?_⟩ ?_ ?_
        ⟨hleft, a, b, d, .inl ⟨rfl, rfl⟩⟩ rfl rfl fun m hm => ⟨hm.symm, .inr rfl⟩
      · intro m hm
        cases hm
        exact ⟨x, hx, howner, hwaiting, fun _ => hforks, fun hle => absurd hle (by decide)⟩
      · exact fun hle => absurd hle (by decide)
      · intro r hrq m hm
        cases m with
        | none => trivial
        | owner m k => exact absurd (hm.1.symm.trans howner) hrq
        | left m => exact absurd (hnone.symm.trans hm) (by simp)
        | right m => exact hm
        | entered m => exact hm
      · intro l hl
        exact absurd (hnone.symm.trans hl) (by simp)
    · exact h.exit q
  | forkRight right p0 p1 n =>
    obtain ⟨hright, rfl, rfl, a, b, d, rfl, ha, hb, hd⟩ := hlocal
    obtain ⟨x, hx, howner, hwaiting, hforks, -⟩ := hgood.fits n rfl
    obtain ⟨hnone, hentered⟩ := hforks (Nat.le_refl 1)
    simp only [go]
    split
    · refine h.forkNote hp hx (hgood.move (keeps_refl _) ⟨a, b, d, ha, hb, hd, .inl ⟨rfl, rfl⟩⟩
        (.inr ⟨?_, fun m hm => .inl hm⟩)) ⟨howner, hwaiting, ?_, ?_⟩ ?_ ?_
        ⟨hright, a, b, d, hb, hd, .inl ⟨rfl, rfl⟩⟩ rfl ⟨rfl, hentered⟩
        fun m hm => ⟨hm.symm, .inl rfl⟩
      · intro m hm
        cases hm
        exact ⟨x, hx, howner, hwaiting, (fun hle => absurd hle (by decide)),
          fun hle => absurd hle (by decide)⟩
      · exact fun hle => absurd hle (by decide)
      · exact fun hle => absurd hle (by decide)
      · intro r hrq m hm
        cases m with
        | none => trivial
        | owner m k => exact absurd (hm.1.symm.trans howner) hrq
        | left m => exact hm
        | right m => exact absurd (hnone.symm.trans hm.1) (by simp)
        | entered m => exact absurd (hnone.symm.trans hm) (by simp)
      · exact fun l hl => hl
    · exact h.exit q
  | left calls cmd n =>
    cases calls with
    | nil => exact h.set hp (hgood.move (keeps_refl _) (left_done hlocal) (.inl rfl))
    | cons c calls =>
      exact h.set hp (hgood.move (keeps_run _ c) (left_call hlocal) (.inl rfl))
  | right calls cmd n =>
    cases calls with
    | nil =>
      obtain ⟨x, hx, hright, hentered⟩ := hgood.fits n rfl
      obtain ⟨hrun, hno⟩ := right_done hlocal
      refine h.setNote hp hx (hgood.move (keeps_refl _) hrun (.inr ⟨?_, fun m hm => .inr ?_⟩))
        (fun hfits => hfits) ?_ rfl
      · intro m hm
        cases hm
        exact ⟨x, hx, hright⟩
      · cases hm
        exact hno
      · intro r hrq m hm
        cases m with
        | none => trivial
        | owner m k =>
          refine ⟨hm.1, hm.2.1, fun hle => ?_, hm.2.2.2⟩
          exact absurd ((hm.2.2.1 hle).1.symm.trans hright) (by simp)
        | left m => exact hm
        | right m => exact absurd (Option.some.inj (hm.1.symm.trans hright)) hrq
        | entered m => exact hm
    | cons c calls =>
      exact h.set hp (hgood.move (keeps_run _ c) (right_call hlocal) (.inl rfl))
  | closing calls n =>
    cases calls with
    | nil =>
      obtain ⟨x, hx, howner, -, -, -⟩ := hgood.fits n rfl
      have hno := closing_done hlocal
      refine h.setNote hp hx (hgood.move (keeps_refl _) trivial
        (.inr ⟨fits_none rfl, fun m hm => .inr ?_⟩)) (fun hfits => hfits) ?_ rfl
      · cases hm
        exact hno
      · intro r hrq m hm
        cases m with
        | none => trivial
        | owner m k => exact absurd (hm.1.symm.trans howner) hrq
        | left m => exact hm
        | right m => exact hm
        | entered m => exact hm
    | cons c calls =>
      exact h.set hp (hgood.move (keeps_run _ c) (closing_call hlocal) (.inl rfl))
  | waits k =>
    cases k with
    | zero => exact h.exit q
    | succ k => exact h.set hp (hgood.plain (keeps_refl _) trivial rfl fun _ hb => hb)
  | user => exact h

theorem Inv.userOp (h : Inv s) (hp : s.procs q = some p) (hpc : p.pc = .user) (op : UserOp) :
    Inv (userOp s q p op) := by
  obtain ⟨line, fds, pc⟩ := p
  obtain rfl : pc = .user := hpc
  obtain ⟨hlt, hgood⟩ := h.good q _ hp
  have hmove : ∀ {fds'}, Keeps fds fds' → Inv (s.set q ⟨line, fds', .user⟩) := fun hk =>
    h.set hp (hgood.move hk trivial (.inl rfl))
  cases op with
  | close fd => exact hmove (keeps_close fds fd)
  | dup fd => exact hmove (keeps_dup fds fd)
  | opens name mode =>
    simp only [Sh.userOp]
    split
    · rename_i halloc
      exact hmove (keeps_inode halloc)
    · exact h
  | pipe =>
    simp only [Sh.userOp]
    split
    · rename_i p0 p1 fds' hpipe
      refine h.change (q := q) (Nat.le_refl _) (fun r p hr => ?_) (fun r p _ hr => ?_) ?_
      · rcases set_procs hr with hold | ⟨rfl, rfl⟩
        · exact .inl hold
        · refine .inr ⟨hlt, hgood.self, trivial, pipe_bound hpipe hgood.pipes, hgood.fits,
            fun fd n x hfd hx => ?_⟩
          rcases pipe_cases hpipe hfd with heq | heq | ⟨j, hj⟩
          · cases heq
          · cases heq
            have hnone : s.node s.nextpipe = some x := hx
            rw [h.fresh _ (Nat.le_refl _)] at hnone
            cases hnone
          · exact hgood.holds j n x hj hx
      · have hnew := hr.newPipe (h.fresh _ (Nat.le_refl _)) (s.node s.nextpipe)
        rw [update_eq_self] at hnew
        exact hnew
      · exact fun n hn => h.fresh n (Nat.le_of_succ_le hn)
    · exact h
  | fork => exact h.fork hp (fun _ hb => hb) rfl rfl trivial trivial
  | exit => exact h.exit q

/-- **Every step keeps what holds of all processes.** -/
theorem good_step {a : Action} (h : Inv s) (hst : step s a = some s') : Inv s' := by
  cases a with
  | go q ok =>
    simp only [step, Option.map_eq_some_iff] at hst
    obtain ⟨⟨line, fds, pc⟩, hp, rfl⟩ := hst
    by_cases hpc : ∃ cmd side, pc = .run cmd side
    · obtain ⟨cmd, side, rfl⟩ := hpc
      exact h.run hp ok
    · exact h.call hp ok fun cmd side heq => hpc ⟨cmd, side, heq⟩
  | user q op =>
    simp only [step] at hst
    split at hst
    · rename_i p hp
      split at hst
      · rename_i hpc
        cases hst
        exact h.userOp hp hpc op
      · cases hst
    · cases hst

/-! ## The commands of the parser -/

section Std

variable {W : Type}

theorem Cmd.Std.redirect {c : Cmd W} (h : c.Std) (w : W) (t : Token) : (c.redirect w t).Std := by
  cases t <;> first | exact h | exact ⟨by decide, h⟩

theorem Cmd.Std.wrap {c : Cmd W} (h : c.Std) (rs : List (Token × W)) : (wrap c rs).Std := by
  induction rs generalizing c with
  | nil => exact h
  | cons r rs ih => exact ih (h.redirect r.2 r.1)

theorem Cmd.Std.backs {c : Cmd W} (h : c.Std) (k : ℕ) : (Cmd.back^[k] c).Std := by
  induction k generalizing c with
  | zero => exact h
  | succ k ih => exact ih (c := .back c) h

end Std

theorem Derives.std {ph : Phrase} {ts : List Tok} {d : Command} (h : Derives ph ts d) : d.Std := by
  induction h with
  | line k h ih => exact ih.backs k
  | list k h h' ih ih' => exact ⟨ih.backs k, ih'⟩
  | pipe h ih => exact ih
  | bar h h' ih ih' => exact ⟨ih, ih'⟩
  | block h h' ih => exact ih.wrap _
  | simple h h' hlen => exact Cmd.Std.wrap (c := .exec _) trivial _

theorem inv_start {cmd : Command} (hstd : cmd.Std) (h : Start cmd q s) : Inv s := by
  refine ⟨fun r p hr => ?_, fun n _ => h.node n⟩
  obtain ⟨hself, hlt⟩ := h.line r p hr
  refine ⟨hlt, hself, ?_, fun fd n hfd => h.pipes r p fd n hr hfd, ?_, fun fd n x _ hx => ?_⟩
  · by_cases hrq : r = q
    · subst hrq
      obtain ⟨p', hp', hpc, hopen⟩ := h.shell
      obtain rfl : p = p' := Option.some.inj (hr.symm.trans hp')
      obtain ⟨a, b, d, htab⟩ := tab_of_open hopen
      rw [hpc]
      exact ⟨hstd, a, b, d, htab, (fun n hn => by cases hn), fun n hn => by cases hn⟩
    · rw [h.users r p hrq hr]
      trivial
  · by_cases hrq : r = q
    · subst hrq
      obtain ⟨p', hp', hpc, -⟩ := h.shell
      obtain rfl : p = p' := Option.some.inj (hr.symm.trans hp')
      exact fits_none (by rw [hpc]; rfl)
    · exact fits_none (by rw [h.users r p hrq hr]; rfl)
  · rw [h.node n] at hx
    cases hx

/-- The processes of a command are wired as they should be. -/
structure Wired (s : State) : Prop where
  /-- A leaf is executed with descriptors 0, 1 and 2. -/
  leaf : ∀ q p argv, s.procs q = some p → p.pc = .exec argv →
    ∀ fd, (p.fds fd).isSome ↔ fd < 3
  /-- No process has an end of a pipe that is still to be made. -/
  fresh : ∀ q p fd n, s.procs q = some p →
    p.fds fd = some (.read n) ∨ p.fds fd = some (.write n) → n < s.nextpipe
  /-- The left side starts with the write end of the node's pipe. -/
  left : ∀ q p cmd n, s.procs q = some p → p.pc = .run cmd (.left n) →
    p.fds 1 = some (.write n) ∧ ∃ x, s.node n = some x ∧ x.left = some q
  /-- The right side starts with its read end. -/
  right : ∀ q p cmd n, s.procs q = some p → p.pc = .run cmd (.right n) →
    p.fds 0 = some (.read n) ∧ ∃ x, s.node n = some x ∧ x.right = some q
  /-- Only the left side and its descendants keep the write end. -/
  ends : ∀ n x, s.node n = some x → x.waiting = true → x.entered = true →
    ∀ q p fd, s.procs q = some p → p.fds fd = some (.write n) →
      ∃ l, x.left = some l ∧ l ∈ p.line

theorem Inv.wired (h : Inv s) : Wired s := by
  refine ⟨fun q p argv hp hpc fd => ?_, fun q p fd n hp => (h.good q p hp).2.pipes fd n,
    fun q p cmd n hp hpc => ?_, fun q p cmd n hp hpc => ?_,
    fun n x hx hwaiting hentered q p fd hp hfd => ?_⟩
  · have hlocal := (h.good q p hp).2.fds
    rw [hpc] at hlocal
    obtain ⟨a, b, d, htab⟩ := hlocal
    rw [htab]
    match fd with
    | 0 | 1 | 2 | 3 | 4 => simp [tab]
    | _ + 5 => simp [tab]
  · obtain ⟨-, hgood⟩ := h.good q p hp
    have hlocal := hgood.fds
    have hfits := hgood.fits
    rw [hpc] at hlocal hfits
    obtain ⟨-, a, b, d, htab, hleft, -⟩ := hlocal
    rw [htab, ← hleft n rfl]
    exact ⟨rfl, hfits n rfl⟩
  · obtain ⟨-, hgood⟩ := h.good q p hp
    have hlocal := hgood.fds
    have hfits := hgood.fits
    rw [hpc] at hlocal hfits
    obtain ⟨-, a, b, d, htab, -, hright⟩ := hlocal
    rw [htab, ← hright n rfl]
    exact ⟨rfl, hfits n rfl⟩
  · obtain ⟨-, hgood⟩ := h.good q p hp
    rcases hgood.holds fd n x hfd hx with hb | hleft
    · -- who borrows the write end is the owner before its waits or the right side before `runcmd`
      exfalso
      have hfits := hgood.fits n
      cases hm : p.pc.mark with
      | owner m k =>
        rw [hm] at hb hfits
        obtain rfl : m = n := hb
        obtain ⟨y, hy, -, hno, -⟩ := hfits rfl
        rw [hx] at hy
        cases hy
        rw [hwaiting] at hno
        cases hno
      | right m =>
        rw [hm] at hb hfits
        obtain rfl : m = n := hb
        obtain ⟨y, hy, -, hno⟩ := hfits rfl
        rw [hx] at hy
        cases hy
        rw [hentered] at hno
        cases hno
      | none | left m | entered m =>
        rw [hm] at hb
        exact hb
    · exact hleft

/-- **Pipelines are wired right**, for every command of the parser and however its processes
interleave. -/
theorem pipeline_wiring {mem : List Char} {r : Cmd Ptr × List Char} {s₀ : State}
    {acts : List Action} (hparse : parsecmd mem = .ok r) (hstart : Start (readout r) q s₀)
    (hrun : exec step s₀ acts = some s) : Wired s := by
  have hstd : (readout r).Std := ((parsecmd_sound mem).of_ok hparse).std
  have hinv := exec_invariant (I := Inv) (fun _ _ _ hs _ hst => good_step hs hst)
    (inv_start hstd hstart) along_true hrun
  exact hinv.wired

/-- A shell with a console for descriptors 0, 1 and 2. -/
def shell (cmd : Command) : State where
  procs := fun q => if q = 0 then
    some ⟨[0], tab (some (.other 0)) (some (.other 0)) (some (.other 0)) none none,
      .run cmd .inner⟩ else none
  nextpid := 1
  nextpipe := 0
  node := fun _ => none

theorem shell_start (cmd : Command) : Start cmd 0 (shell cmd) := by
  refine ⟨⟨_, rfl, rfl, fun fd => ?_⟩, ?_, ?_, ?_, fun _ => rfl⟩
  · match fd with
    | 0 | 1 | 2 | 3 | 4 => simp [tab]
    | _ + 5 => simp [tab]
  · intro r p hr hp
    simp [shell, hr] at hp
  · intro r p hp
    by_cases hr : r = 0
    · subst hr
      cases hp
      exact ⟨List.mem_singleton_self 0, Nat.zero_lt_one⟩
    · simp [shell, hr] at hp
  · intro r p fd n hp hfd
    by_cases hr : r = 0
    · subst hr
      cases hp
      match fd with
      | 0 | 1 | 2 | 3 | 4 => simp [tab] at hfd
      | _ + 5 => simp [tab] at hfd
    · simp [shell, hr] at hp

/-- The command `a | b`, run up to both calls of `exec`. -/
def barRun : List Action :=
  [.go 0 true, .go 0 true, .go 0 true, .go 0 true, .go 0 true, .go 0 true,
    .go 1 true, .go 1 true, .go 1 true, .go 1 true, .go 1 true, .go 1 true,
    .go 2 true, .go 2 true, .go 2 true, .go 2 true, .go 2 true, .go 2 true]

theorem pipeline_wiring_bar : ∃ r s, parsecmd ['a', '|', 'b'] = .ok r ∧
    exec step (shell (readout r)) barRun = some s ∧
    ((s.procs 1).map fun p => p.fds 1) = some (some (.write 0)) ∧
    ((s.procs 2).map fun p => p.fds 0) = some (some (.read 0)) ∧ Wired s := by
  have hrun : ∃ r s, parsecmd ['a', '|', 'b'] = .ok r ∧
      exec step (shell (readout r)) barRun = some s ∧
      ((s.procs 1).map fun p => p.fds 1) = some (some (.write 0)) ∧
      ((s.procs 2).map fun p => p.fds 0) = some (some (.read 0)) := ⟨_, _, rfl, rfl, rfl, rfl⟩
  obtain ⟨r, s, hparse, hrun, hleft, hright⟩ := hrun
  exact ⟨r, s, hparse, hrun, hleft, hright, pipeline_wiring hparse (shell_start _) hrun⟩

end Xv6.Sh
