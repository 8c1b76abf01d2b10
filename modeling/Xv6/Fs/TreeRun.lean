import Xv6.Fs.Tree

/-!
# Runs of the directory functions

What `dirlookup` and `dirlink` compute on a directory, as functions of the
list of its entries, and where a path leads, as a function of the directories alone.

## Main definitions

* `lookup`, `insertEnt` — an entry found, an entry added.
* `resolve` — the walk along a path, without references and locks.

## Main results

* `run_dirlookup`, `wp_dirlink`.
-/

namespace Xv6.Fs.Tree

open Prog

variable {s t : State} {dp ip inum : Inum} {name : Name} {R : Fault → Prop}

/-! ## Single operations -/

@[simp] theorem setNode_self (n : Node) : (s.setNode ip n).node ip = n :=
  Function.update_self ..

theorem setNode_of_ne {j : Inum} (n : Node) (hj : j ≠ ip) : (s.setNode ip n).node j = s.node j :=
  Function.update_of_ne hj ..

@[simp] theorem wp_iget {Q : Unit → State → Prop} :
    wp handle R (Fs.iget ip) Q s ↔ Q () (iget s ip) := Iff.rfl

@[simp] theorem wp_idup {Q : Unit → State → Prop} :
    wp handle R (Fs.idup ip) Q s ↔ Q () (idup s ip) := Iff.rfl

@[simp] theorem wp_iput {Q : Unit → State → Prop} :
    wp handle R (Fs.iput ip) Q s ↔ Q () (iput s ip) := Iff.rfl

@[simp] theorem wp_stat {Q : Stat → State → Prop} :
    wp handle R (Fs.stat ip) Q s ↔ Q (stat s ip) s := Iff.rfl

@[simp] theorem wp_iupdate {major minor nlink : ℤ} {Q : Unit → State → Prop} :
    wp handle R (Fs.iupdate ip major minor nlink) Q s ↔
      Q () (s.setNode ip { s.node ip with major := major, minor := minor, nlink := nlink }) :=
  Iff.rfl

@[simp] theorem wp_tables {Q : Tables → State → Prop} :
    wp handle R Fs.tables Q s ↔ Q s.tables s := Iff.rfl

theorem wp_writeDirent {off : ℕ} {de : Dirent} {Q : Bool → State → Prop} :
    wp handle R (Fs.writeDirent ip off de) Q s ↔
      match writeDirent (s.node ip) off de with
      | none => Q false s
      | some n => Q true (s.setNode ip n) := by
  have hrun : run handle (Fs.writeDirent ip off de) s =
      match writeDirent (s.node ip) off de with
      | none => .ok (false, s)
      | some n => .ok (true, s.setNode ip n) := run_op _
  rw [wp, hrun]
  cases writeDirent (s.node ip) off de <;> rfl

/-! ## Looking for an entry -/

/-- The entry that `dirlookup` finds among `ents`, the first of which is at `off`. -/
def lookupFrom (name : Name) : List Dirent → ℕ → Option (Inum × ℕ)
  | [], _ => none
  | e :: es, off =>
    if e.inum ≠ 0 ∧ name = e.name then some (e.inum, off)
    else lookupFrom name es (off + direntSize)

/-- The entry that `dirlookup` finds in a directory, and its offset. -/
def lookup (n : Node) (name : Name) : Option (Inum × ℕ) := lookupFrom name n.ents 0

/-- The state after `dirlookup`: the inode found has one more reference. -/
def afterLookup (s : State) : Option (Inum × ℕ) → State
  | none => s
  | some (ip, _) => iget s ip

theorem run_readDirent (k : ℕ) :
    run handle (Fs.readDirent ip (direntSize * k)) s = .ok ((s.node ip).ents[k]?, s) := by
  have hk : direntSize * k / direntSize = k := Nat.mul_div_cancel_left k (by decide)
  change Except.ok (readDirent (s.node ip) (direntSize * k), s) = _
  rw [readDirent, hk]

theorem rounds_mul (k : ℕ) : rounds (direntSize * k) = k := by
  simp only [rounds, direntSize]
  omega

theorem run_dirlookupFrom (n k : ℕ) (hn : (s.node dp).ents.length = k + n) :
    run handle (dirlookupFrom dp name n (direntSize * k)) s =
      .ok (lookupFrom name ((s.node dp).ents.drop k) (direntSize * k),
        afterLookup s (lookupFrom name ((s.node dp).ents.drop k) (direntSize * k))) := by
  induction n generalizing k with
  | zero =>
    rw [List.drop_of_length_le (by omega)]
    rfl
  | succ n ih =>
    have hk : k < (s.node dp).ents.length := by omega
    rw [List.drop_eq_getElem_cons hk]
    simp only [dirlookupFrom, run_bind, run_readDirent, List.getElem?_eq_getElem hk, lookupFrom]
    split
    · rfl
    · exact ih (k + 1) (by omega)

theorem run_dirlookup (hd : (s.node dp).type = some .dir) :
    run handle (dirlookup dp name) s =
      .ok (lookup (s.node dp) name, afterLookup s (lookup (s.node dp) name)) := by
  have hstat : run handle (Fs.stat dp) s = .ok (stat s dp, s) := rfl
  simp only [dirlookup, run_bind, hstat, stat, hd, ne_eq, not_true_eq_false, if_false,
    Node.bytes, if_true, rounds_mul]
  exact run_dirlookupFrom (s.node dp).ents.length 0 (by omega)

theorem wp_dirlookup {Q : Option (Inum × ℕ) → State → Prop} (hd : (s.node dp).type = some .dir) :
    wp handle R (dirlookup dp name) Q s ↔
      Q (lookup (s.node dp) name) (afterLookup s (lookup (s.node dp) name)) := by
  rw [wp, run_dirlookup hd]

theorem lookupFrom_eq_some {es : List Dirent} {o off : ℕ}
    (h : lookupFrom name es o = some (ip, off)) :
    ∃ k, off = o + direntSize * k ∧ es[k]? = some ⟨ip, name⟩ ∧ ip ≠ 0 := by
  induction es generalizing o with
  | nil => cases h
  | cons e es ih =>
    rw [lookupFrom] at h
    split at h
    · rename_i he
      cases h
      obtain ⟨einum, ename⟩ := e
      obtain ⟨he₁, rfl⟩ := he
      exact ⟨0, by omega, rfl, he₁⟩
    · obtain ⟨k, rfl, hk, h0⟩ := ih h
      exact ⟨k + 1, by simp only [direntSize]; omega, hk, h0⟩

/-- What is found is an entry in use, at the offset given. -/
theorem lookup_eq_some {n : Node} {off : ℕ} (h : lookup n name = some (ip, off)) :
    ∃ k, off = direntSize * k ∧ n.ents[k]? = some ⟨ip, name⟩ ∧ ip ≠ 0 := by
  obtain ⟨k, hk, h'⟩ := lookupFrom_eq_some h
  exact ⟨k, by omega, h'⟩

theorem lookupFrom_eq_none {es : List Dirent} {o : ℕ} (h : lookupFrom name es o = none)
    {e : Dirent} (he : e ∈ es) (h0 : e.inum ≠ 0) : e.name ≠ name := by
  induction es generalizing o with
  | nil => cases he
  | cons e' es ih =>
    rw [lookupFrom] at h
    split at h
    · cases h
    · rename_i hne
      rcases List.mem_cons.mp he with rfl | he
      · exact fun h => hne ⟨h0, h.symm⟩
      · exact ih h he

/-- A name that is not found is no entry's in use. -/
theorem lookup_eq_none {n : Node} (h : lookup n name = none) {e : Dirent} (he : e ∈ n.ents)
    (h0 : e.inum ≠ 0) : e.name ≠ name :=
  lookupFrom_eq_none h he h0

/-! ## Adding an entry -/

/-- The place of the first empty entry, the length when there is none. -/
def emptyIdx (es : List Dirent) : ℕ := es.findIdx fun e => e.inum = 0

/-- An entry put into the first empty place, or at the end. -/
def insertEnt (es : List Dirent) (e : Dirent) : List Dirent :=
  if emptyIdx es < es.length then es.set (emptyIdx es) e else es ++ [e]

/-- The directory with one more entry. -/
def Node.link (n : Node) (e : Dirent) : Node := { n with ents := insertEnt n.ents e }

theorem run_emptyDirent (n k : ℕ) (hn : (s.node dp).ents.length = k + n) :
    run handle (emptyDirent dp n (direntSize * k)) s =
      .ok (direntSize * (k + emptyIdx ((s.node dp).ents.drop k)), s) := by
  induction n generalizing k with
  | zero =>
    rw [List.drop_of_length_le (by omega)]
    rfl
  | succ n ih =>
    have hk : k < (s.node dp).ents.length := by omega
    rw [List.drop_eq_getElem_cons hk]
    simp only [emptyDirent, run_bind, run_readDirent, List.getElem?_eq_getElem hk, emptyIdx,
      List.findIdx_cons]
    split
    · rename_i h0
      simp [h0]
    · rename_i h0
      have hstep := ih (k + 1) (by omega)
      rw [emptyIdx] at hstep
      simp only [h0, decide_false, cond_false]
      rw [show k + ((List.findIdx (fun e => decide (e.inum = 0))
        (List.drop (k + 1) (s.node dp).ents)) + 1) = k + 1 + List.findIdx
        (fun e => decide (e.inum = 0)) (List.drop (k + 1) (s.node dp).ents) by omega]
      exact hstep

theorem writeDirent_mul (n : Node) (k : ℕ) (e : Dirent) :
    writeDirent n (direntSize * k) e =
      if k < n.ents.length then some { n with ents := n.ents.set k e }
      else if k = n.ents.length ∧ k < maxEnts then some { n with ents := n.ents ++ [e] }
      else none := by
  have hk : direntSize * k / direntSize = k := Nat.mul_div_cancel_left k (by decide)
  simp only [writeDirent, hk]

/-- There is an empty entry, or the directory may become longer. -/
def HasRoom (es : List Dirent) : Prop := emptyIdx es < es.length ∨ es.length < maxEnts

instance (es : List Dirent) : Decidable (HasRoom es) := inferInstanceAs (Decidable (_ ∨ _))

theorem emptyIdx_le (es : List Dirent) : emptyIdx es ≤ es.length := List.findIdx_le_length

/-- An entry is written exactly when there is room. -/
theorem writeDirent_emptyIdx (n : Node) (e : Dirent) :
    writeDirent n (direntSize * emptyIdx n.ents) e =
      if HasRoom n.ents then some (n.link e) else none := by
  have hle := emptyIdx_le n.ents
  rw [writeDirent_mul, Node.link, insertEnt]
  by_cases hlt : emptyIdx n.ents < n.ents.length
  · rw [if_pos hlt, if_pos hlt, if_pos (.inl hlt)]
  · have heq : emptyIdx n.ents = n.ents.length := by omega
    rw [if_neg hlt, if_neg hlt]
    by_cases hroom : n.ents.length < maxEnts
    · rw [if_pos ⟨heq, by omega⟩, if_pos (.inr hroom)]
    · rw [if_neg (by omega), if_neg fun h => h.elim hlt hroom]

/-- A link under a new name adds an entry, if there is room; under a name that exists, it looks
at the entry and drops it. -/
theorem wp_dirlink {Q : Bool → State → Prop} (hd : (s.node dp).type = some .dir)
    (hR : lookup (s.node dp) name = none → ¬HasRoom (s.node dp).ents → R .dirlink)
    (hold : ∀ ip off, lookup (s.node dp) name = some (ip, off) → Q false (iput (iget s ip) ip))
    (hnew : lookup (s.node dp) name = none → HasRoom (s.node dp).ents →
      Q true (s.setNode dp ((s.node dp).link ⟨inum, name⟩))) :
    wp handle R (dirlink dp name inum) Q s := by
  simp only [dirlink, wp_bind, wp_dirlookup hd]
  cases hl : lookup (s.node dp) name with
  | some r => exact hold r.1 r.2 hl
  | none =>
    have hfind : run handle (emptyDirent dp (s.node dp).ents.length (direntSize * 0)) s = _ :=
      run_emptyDirent _ 0 (by omega)
    simp only [Nat.mul_zero, Nat.zero_add, List.drop_zero] at hfind
    simp only [afterLookup, wp_bind, wp_stat, stat, Node.bytes, hd, if_true, rounds_mul]
    refine wp_of_run hfind ?_
    rw [wp_bind, wp_writeDirent, writeDirent_emptyIdx]
    by_cases hroom : HasRoom (s.node dp).ents
    · rw [if_pos hroom]
      exact hnew hl hroom
    · rw [if_neg hroom]
      exact hR hl hroom

/-! ## Empty directories -/

/-! ## Paths -/

/-- Where the walk of `namex` ends, on the directories alone. -/
def resolve (node : Inum → Node) (parent : Bool) : Inum → List Name → Name → Option (Inum × Name)
  | ip, [], last => if parent then none else some (ip, last)
  | ip, name :: rest, _ =>
    if (node ip).type ≠ some .dir then none
    else if parent ∧ rest = [] then some (ip, name)
    else
      match lookup (node ip) name with
      | none => none
      | some (next, _) => resolve node parent next rest name

/-- The start of the walk. -/
def start (t : Tables) (p : Pid) (path : List Char) : Inum :=
  if path.head? = some '/' then ROOTINO else ((t.proc p).getD ⟨0, fun _ => none⟩).cwd

/-- The inode that a path leads to. -/
def State.namei (s : State) (p : Pid) (path : List Char) : Option Inum :=
  (resolve s.node false (start s.tables p path) (elems path) []).map Prod.fst

/-- The directory that holds the last element of a path, and that element. -/
def State.nameiparent (s : State) (p : Pid) (path : List Char) : Option (Inum × Name) :=
  resolve s.node true (start s.tables p path) (elems path) []

end Xv6.Fs.Tree
