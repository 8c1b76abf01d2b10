import Xv6.Fs.TreeRun

/-!
# New names

What a call that makes a name is about to do, read off the state before it, and the directories
that `mkfs` makes.

## Main definitions

* `newName`, `newNameIn` — the directory in which a path or a call would make a name.

## Main results

* `countP_insertEnt` — what a directory has after an entry is added.
* `boot_cases` — the inodes that `mkfs` makes.
-/

namespace Xv6.Fs.Tree

open Prog

variable {s : State} {ip dp : Inum} {p : Pid} {name : Name} {path : List Char}

/-! ## Entries -/

theorem emptyIdx_lt {es : List Dirent} (h : emptyIdx es < es.length) :
    (es[emptyIdx es]).inum = 0 :=
  of_decide_eq_true (List.findIdx_getElem (w := h))

theorem mem_insertEnt {es : List Dirent} {e x : Dirent} (h : x ∈ insertEnt es e) :
    x = e ∨ x ∈ es := by
  rw [insertEnt] at h
  split at h
  · exact (List.mem_or_eq_of_mem_set h).symm
  · rcases List.mem_append.mp h with h | h
    · exact Or.inr h
    · exact Or.inl (List.mem_singleton.mp h)

/-- Adding an entry counts it, and loses none that is in use. -/
theorem countP_insertEnt {es : List Dirent} {e : Dirent} {p : Dirent → Bool}
    (hp : ∀ x, p x = true → x.inum ≠ 0) :
    (insertEnt es e).countP p = es.countP p + if p e then 1 else 0 := by
  rw [insertEnt]
  split
  · rename_i h
    have hfree : p es[emptyIdx es] ≠ true := fun hx => hp _ hx (emptyIdx_lt h)
    rw [List.countP_set h, if_neg hfree]
    omega
  · rw [List.countP_append, List.countP_singleton]

/-! ## Paths and link counts -/

theorem short_eq {n : ℤ} (h₀ : 0 ≤ n) (h₁ : n ≤ 32767) : short n = n := by
  rw [short, Int.bmod_eq_of_le] <;> omega

theorem resolve_parent {node : Inum → Node} {names : List Name} {ip dp : Inum} {last name : Name}
    (h : resolve node true ip names last = some (dp, name)) : (node dp).type = some .dir := by
  induction names generalizing ip last with
  | nil => cases h
  | cons n rest ih =>
    rw [resolve] at h
    split at h
    · cases h
    · rename_i hty
      split at h
      · cases h
        exact not_not.mp hty
      · cases hl : lookup (node ip) n with
        | none => simp [hl] at h
        | some r => exact ih (by simpa [hl] using h)

/-- `nameiparent` gives a directory. -/
theorem nameiparent_dir (h : s.nameiparent p path = some (dp, name)) :
    (s.node dp).type = some .dir := resolve_parent h

@[simp] theorem wp_addLinks {R : Fault → Prop} {n : ℤ} {Q : Unit → State → Prop} :
    wp handle R (addLinks ip n) Q s ↔
      Q () (s.setNode ip { s.node ip with nlink := short ((s.node ip).nlink + n) }) := Iff.rfl

/-! ## What a call is about to do -/

/-- The directory in which a path would make a name that is not there yet. -/
def newName (s : State) (p : Pid) (path : List Char) : Option Inum :=
  match s.nameiparent p path with
  | none => none
  | some (dp, name) => if lookup (s.node dp) name = none then some dp else none

/-- The file that `link` would give one more link. -/
def linkSource (s : State) (p : Pid) (old : List Char) : Option Inum :=
  match s.namei p old with
  | none => none
  | some ip => if (s.node ip).type = some .dir then none else some ip

/-- The directory in which a call would make a name. -/
def newNameIn (s : State) (a : Action) : Option Inum :=
  match a.call with
  | .openFile path omode => if omode &&& O_CREATE ≠ 0 then newName s a.pid path else none
  | .mkdir path => newName s a.pid path
  | .mknod path _ _ => newName s a.pid path
  | .link old new => if linkSource s a.pid old = none then none else newName s a.pid new
  | _ => none

theorem newName_eq_some (h : s.nameiparent p path = some (dp, name))
    (hl : lookup (s.node dp) name = none) : newName s p path = some dp := by
  rw [newName, h]
  exact if_pos hl

theorem linkSource_eq_some {old : List Char} (h : s.namei p old = some ip)
    (hd : (s.node ip).type ≠ some .dir) : linkSource s p old = some ip := by
  rw [linkSource, h]
  exact if_neg hd

/-- A call of the first process. -/
def initCall (c : Call) : Action := ⟨0, c⟩

/-! ## The first state -/

variable {files : List (Name × ℕ)}

theorem boot_file {i : ℕ} (hi : 2 ≤ i ∧ i < 2 + files.length) :
    ∃ size, (boot files).node i = madeBy .file size [] := by
  have hlt : i - 2 < files.length := by omega
  refine ⟨files[i - 2].2, ?_⟩
  have hroot : i ≠ ROOTINO := by
    simp only [ROOTINO]
    omega
  simp only [boot, if_neg hroot, List.getElem?_eq_getElem hlt, if_neg (Nat.not_lt.mpr hi.1)]

theorem boot_free {i : ℕ} (hroot : i ≠ ROOTINO) (hi : ¬(2 ≤ i ∧ i < 2 + files.length)) :
    (boot files).node i = Node.free := by
  simp only [boot, if_neg hroot]
  split
  · rename_i hget
    obtain ⟨hlt, -⟩ := List.getElem?_eq_some_iff.mp hget
    exact if_pos (Nat.lt_of_not_le fun h => hi ⟨h, by omega⟩)
  · rfl

/-- The inodes in use after `mkfs`. -/
theorem boot_cases {i : ℕ} (hi : ((boot files).node i).type ≠ none) :
    i = ROOTINO ∨ (2 ≤ i ∧ i < 2 + files.length) := by
  by_cases hroot : i = ROOTINO
  · exact Or.inl hroot
  · refine Or.inr ?_
    by_contra hno
    rw [boot_free hroot hno] at hi
    exact hi rfl

theorem boot_dir {i : ℕ} (hi : ((boot files).node i).type = some .dir) : i = ROOTINO := by
  rcases boot_cases (by rw [hi]; simp) with h | h
  · exact h
  · obtain ⟨size, hsize⟩ := boot_file h
    rw [hsize] at hi
    cases hi

end Xv6.Fs.Tree
