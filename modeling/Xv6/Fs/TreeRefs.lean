import Xv6.Fs.TreeRun
import Xv6.Lib.Tally
import Mathlib.Algebra.Order.BigOperators.Group.Finset

/-!
# References to inodes

The references to an inode from the tables: those of open files and of working directories.

## Main definitions

* `tableRefs` — the references from the tables.
* `afterWalk` — the references of a call after a walk.

## Main results

* `tableRefs_setFile`, `tableRefs_setProc` — an entry of a table changes.
-/

namespace Xv6.Fs.Tree

open Prog Tally

/-! ## Counting -/

/-- The references of an open file. -/
def fileRefs (i : Inum) (f : File) : ℕ := if f.type = .inode ∧ f.ip = i then 1 else 0

/-- The references of a process. -/
def cwdRefs (i : Inum) (me : Option ProcFiles) : ℕ := if me.map ProcFiles.cwd = some i then 1 else 0

/-- The references to an inode from open files and working directories. -/
def tableRefs (t : Tables) (i : Inum) : ℕ :=
  ∑ f, fileRefs i (t.file f) + ∑ p, cwdRefs i (t.proc p)

/-- An update of the file table. -/
theorem tableRefs_setFile (t : Tables) (f : Fin NFILE) (x : File) (i : Inum) :
    tableRefs { t with file := Function.update t.file f x } i + fileRefs i (t.file f) =
      tableRefs t i + fileRefs i x := by
  have h := sum_update (Finset.mem_univ f) t.file x (fileRefs i)
  simp only [tableRefs]
  omega

/-- An update of the process table. -/
theorem tableRefs_setProc (t : Tables) (p : Pid) (x : Option ProcFiles) (i : Inum) :
    tableRefs { t with proc := Function.update t.proc p x } i + cwdRefs i (t.proc p) =
      tableRefs t i + cwdRefs i x := by
  have h := sum_update (Finset.mem_univ p) t.proc x (cwdRefs i)
  simp only [tableRefs]
  omega

theorem fileRefs_le (t : Tables) (f : Fin NFILE) (i : Inum) :
    fileRefs i (t.file f) ≤ tableRefs t i := by
  have h := Finset.single_le_sum (f := fun g => fileRefs i (t.file g))
    (fun _ _ => Nat.zero_le _) (Finset.mem_univ f)
  exact Nat.le_trans h (Nat.le_add_right _ _)

theorem cwdRefs_le (t : Tables) (p : Pid) (i : Inum) :
    cwdRefs i (t.proc p) ≤ tableRefs t i := by
  have h := Finset.single_le_sum (f := fun q => cwdRefs i (t.proc q))
    (fun _ _ => Nat.zero_le _) (Finset.mem_univ p)
  exact Nat.le_trans h (Nat.le_add_left _ _)

theorem tableRefs_cwd_pos {t : Tables} {p : Pid} {me : ProcFiles} (hp : t.proc p = some me) :
    0 < tableRefs t me.cwd := by
  have h := cwdRefs_le t p me.cwd
  rw [hp, cwdRefs, Option.map_some, if_pos rfl] at h
  exact h

theorem tableRefs_file_pos {t : Tables} {f : Fin NFILE} (hf : (t.file f).type = .inode) :
    0 < tableRefs t (t.file f).ip := by
  have h := fileRefs_le t f (t.file f).ip
  rw [fileRefs, if_pos ⟨hf, rfl⟩] at h
  exact h

/-- The first process is in the root directory. -/
theorem tableRefs_boot (files : List (Name × ℕ)) (i : Inum) :
    tableRefs (boot files).tables i = if i = ROOTINO then 1 else 0 := by
  have hfiles : ∑ f, fileRefs i ((boot files).tables.file f) = 0 :=
    Finset.sum_eq_zero fun f _ => rfl
  have hprocs : ∑ p, cwdRefs i ((boot files).tables.proc p) =
      cwdRefs i (some ⟨ROOTINO, fun _ => none⟩) := by
    refine Finset.sum_eq_single 0 (fun p _ hp => ?_) fun h => absurd (Finset.mem_univ 0) h
    simp [boot, hp, cwdRefs]
  rw [tableRefs, hfiles, hprocs, Nat.zero_add, cwdRefs, Option.map_some]
  simp only [Option.some.injEq, eq_comm]

/-! ## Entries of the cache -/

/-- The nodes and the tables are as before. -/
structure Same (s t : State) : Prop where
  node : t.node = s.node
  tables : t.tables = s.tables

theorem iget_same (s : State) (i : Inum) : Same s (iget s i) := by
  rw [iget]
  split <;> exact ⟨rfl, rfl⟩

theorem iget_ref (s : State) (i : Inum) :
    (iget s i).ref = Function.update s.ref i (s.ref i + 1) := by
  rw [iget]
  split
  · rfl
  · rename_i hi
    rw [Nat.eq_zero_of_not_pos hi]

theorem iput_tables (s : State) (i : Inum) : (iput s i).tables = s.tables := by
  rw [iput]
  split <;> rfl

/-- The references after a walk: one more, to the inode it ends at. -/
def afterWalk (L : List Inum) : Option (Inum × Name) → List Inum
  | none => L
  | some r => r.1 :: L

end Xv6.Fs.Tree
