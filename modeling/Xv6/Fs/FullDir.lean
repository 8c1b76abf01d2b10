import Xv6.Fs.TreeNames
import Xv6.Fs.Path
import Xv6.Lib.Interp
import Xv6.Lib.Machine

/-!
# Names in a full directory

`dirlink` panics when `writei` refuses the entry, and `writei` refuses it when the directory is as
long as a file may be.  Nothing before that looks at the length of a directory, so a process that
makes names in one directory reaches the panic.

## Main definitions

* `Calm` — the faults other than the panics of `dirlink` and of `create` after it.
* `Pruned` — a state in which inodes may have been freed, but no directory has another entry.
* `Room` — the directory in which a call would make a name has room for it.

## Main results

* `Pruned.wp_walk` — a walk that ends somewhere ends where the names led at the start.
* `adding_names` — the calls do not panic where there is room.
* `full_directory` — a run to the panic.
-/

namespace Xv6.Fs.Tree

open Function Prog Machine

variable {R : Fault → Prop} {room : Prop} {s t u : State} {dp ip i : Inum} {p : Pid}
  {name last : Name} {path : List Char} {parent : Bool} {names : List Name}

/-! ## Faults -/

/-- The faults that may occur: not the panic of `create`, and not that of `dirlink` if there is
`room`. -/
def Calm (room : Prop) (e : Fault) : Prop := (room → e ≠ .dirlink) ∧ e ≠ .createDirlink

theorem Calm.of_ne {e : Fault} (h₁ : e ≠ .dirlink) (h₂ : e ≠ .createDirlink) : Calm room e :=
  ⟨fun _ => h₁, h₂⟩

/-- Operations other than these panics. -/
def Quiet : FsOp → Prop
  | .panic why => why ≠ .dirlink ∧ why ≠ .createDirlink
  | _ => True

theorem handle_calm {o : FsOp} {e : Fault} (ho : Quiet o) (he : handle o s = .error e) :
    Calm room e := by
  cases o with
  | ialloc type =>
    rw [handle, ialloc] at he
    split at he
    · cases he
      exact .of_ne (by decide) (by decide)
    · cases he
  | ilock ip =>
    rw [handle, ilock] at he
    split at he
    · cases he
      exact .of_ne (by decide) (by decide)
    · split at he
      · cases he
        exact .of_ne (by decide) (by decide)
      · dsimp only at he
        split at he
        · cases he
        · split at he
          · cases he
            exact .of_ne (by decide) (by decide)
          · cases he
  | iunlock ip =>
    rw [handle, iunlock] at he
    split at he
    · cases he
      exact .of_ne (by decide) (by decide)
    · cases he
  | writeDirent ip off de =>
    rw [handle] at he
    split at he <;> cases he
  | writei ip off data =>
    rw [handle] at he
    split at he <;> cases he
  | panic why =>
    cases he
    exact .of_ne ho.1 ho.2
  | _ => cases he

/-- A program without these panics, in any state. -/
theorem wp_calm {α : Type} {m : FsProg α} (hm : Only Quiet m) :
    wp handle (Calm room) m (fun _ _ => True) s := by
  induction hm generalizing s with
  | pure a => trivial
  | call o next ho _ ih =>
    rw [wp, run]
    cases hr : handle o s with
    | ok r => exact ih r.1
    | error e => exact handle_calm ho hr

theorem quiet_panic {α : Type} {why : Fault} (h₁ : why ≠ .dirlink) (h₂ : why ≠ .createDirlink) :
    Only Quiet (panic why : FsProg α) := .call _ _ ⟨h₁, h₂⟩ fun r => r.elim

theorem quiet_ilock : Only Quiet (Fs.ilock ip) := only_op (o := FsOp.ilock ip) trivial
theorem quiet_iunlock : Only Quiet (Fs.iunlock ip) := only_op (o := FsOp.iunlock ip) trivial
theorem quiet_iget : Only Quiet (Fs.iget ip) := only_op (o := FsOp.iget ip) trivial
theorem quiet_idup : Only Quiet (Fs.idup ip) := only_op (o := FsOp.idup ip) trivial
theorem quiet_iput : Only Quiet (Fs.iput ip) := only_op (o := FsOp.iput ip) trivial
theorem quiet_stat : Only Quiet (Fs.stat ip) := only_op (o := FsOp.stat ip) trivial
theorem quiet_tables : Only Quiet Fs.tables := only_op (o := FsOp.tables) trivial
theorem quiet_setTables (T : Tables) : Only Quiet (Fs.setTables T) :=
  only_op (o := FsOp.setTables T) trivial
theorem quiet_readDirent (off : ℕ) : Only Quiet (Fs.readDirent ip off) :=
  only_op (o := FsOp.readDirent ip off) trivial

theorem quiet_iunlockput : Only Quiet (iunlockput ip) := quiet_iunlock.bind fun _ => quiet_iput

theorem quiet_addLinks (n : ℤ) : Only Quiet (addLinks ip n) :=
  quiet_stat.bind fun _ => .call _ _ trivial fun _ => only_pure _

theorem quiet_linkBad : Only Quiet (linkBad ip) :=
  quiet_ilock.bind fun _ => (quiet_addLinks _).bind fun _ =>
    quiet_iunlockput.bind fun _ => only_pure _

theorem quiet_dirlookup : Only Quiet (dirlookup dp name) := by
  have hloop : ∀ n off, Only Quiet (dirlookupFrom dp name n off) := by
    intro n
    induction n with
    | zero => exact fun _ => only_pure _
    | succ n ih =>
      intro off
      refine (quiet_readDirent off).bind fun de => ?_
      cases de with
      | none => exact quiet_panic (by decide) (by decide)
      | some de =>
        dsimp only
        split
        · exact quiet_iget.bind fun _ => only_pure _
        · exact ih _
  refine quiet_stat.bind fun st => ?_
  split
  · exact quiet_panic (by decide) (by decide)
  · exact hloop _ _

theorem quiet_isdirempty : Only Quiet (isdirempty dp) := by
  have hloop : ∀ n off, Only Quiet (isdiremptyFrom dp n off) := by
    intro n
    induction n with
    | zero => exact fun _ => only_pure _
    | succ n ih =>
      intro off
      refine (quiet_readDirent off).bind fun de => ?_
      cases de with
      | none => exact quiet_panic (by decide) (by decide)
      | some de =>
        dsimp only
        split
        · exact only_pure _
        · exact ih _
  exact quiet_stat.bind fun st => hloop _ _

theorem quiet_myproc : Only Quiet (myproc p) := quiet_tables.bind fun _ => only_pure _

theorem quiet_namex : Only Quiet (namex p path parent) := by
  have hwalk : ∀ (names : List Name) ip last, Only Quiet (walk parent ip names last) := by
    intro names
    induction names with
    | nil =>
      intro ip last
      rw [walk]
      split
      · exact quiet_iput.bind fun _ => only_pure _
      · exact only_pure _
    | cons name rest ih =>
      intro ip last
      rw [walk]
      refine quiet_ilock.bind fun _ => quiet_stat.bind fun st => ?_
      split
      · exact quiet_iunlockput.bind fun _ => only_pure _
      · split
        · exact quiet_iunlock.bind fun _ => only_pure _
        · refine quiet_dirlookup.bind fun r => ?_
          cases r with
          | none => exact quiet_iunlockput.bind fun _ => only_pure _
          | some r => exact quiet_iunlockput.bind fun _ => ih _ _
  rw [namex]
  split
  · exact quiet_iget.bind fun _ => hwalk _ _ _
  · exact quiet_myproc.bind fun _ => quiet_idup.bind fun _ => hwalk _ _ _

theorem quiet_fileclose (f : Fin NFILE) : Only Quiet (fileclose f) := by
  refine quiet_tables.bind fun t => ?_
  dsimp only
  split
  · exact quiet_panic (by decide) (by decide)
  split
  · exact quiet_setTables _
  refine (quiet_setTables _).bind fun _ => ?_
  split
  · exact quiet_iput
  · exact only_pure _

theorem quiet_openInode (omode : ℕ) : Only Quiet (openInode p ip omode) := by
  have hfile : Only Quiet filealloc := by
    refine quiet_tables.bind fun t => ?_
    split
    · exact only_pure _
    · exact (quiet_setTables _).bind fun _ => only_pure _
  have hfd : ∀ f, Only Quiet (fdalloc p f) := by
    intro f
    refine quiet_myproc.bind fun me => ?_
    split
    · exact only_pure _
    · exact (quiet_tables.bind fun _ => quiet_setTables _).bind fun _ => only_pure _
  refine hfile.bind fun o => ?_
  cases o with
  | none => exact quiet_iunlockput.bind fun _ => only_pure _
  | some f =>
    refine (hfd f).bind fun o => ?_
    cases o with
    | none =>
      exact (quiet_fileclose f).bind fun _ => quiet_iunlockput.bind fun _ => only_pure _
    | some fd =>
      exact quiet_iunlock.bind fun _ => quiet_tables.bind fun _ =>
        (quiet_setTables _).bind fun _ => only_pure _

theorem quiet_unlinkEntry (off : ℕ) : Only Quiet (unlinkEntry dp ip off) := by
  refine quiet_stat.bind fun st => ?_
  refine Only.bind (only_op (o := FsOp.writeDirent dp off ⟨0, []⟩) trivial) fun b => ?_
  split
  · exact quiet_panic (by decide) (by decide)
  have hrest : Only Quiet (do
      iunlockput dp
      addLinks ip (-1)
      iunlockput ip
      return true) :=
    quiet_iunlockput.bind fun _ => (quiet_addLinks _).bind fun _ =>
      quiet_iunlockput.bind fun _ => only_pure _
  dsimp only
  split
  · exact (quiet_addLinks _).bind fun _ => hrest
  · exact hrest

theorem quiet_sysUnlink : Only Quiet (sysUnlink p path) := by
  refine quiet_namex.bind fun r => ?_
  cases r with
  | none => exact only_pure _
  | some r =>
    refine quiet_ilock.bind fun _ => ?_
    split
    · exact quiet_iunlockput.bind fun _ => only_pure _
    refine quiet_dirlookup.bind fun q => ?_
    cases q with
    | none => exact quiet_iunlockput.bind fun _ => only_pure _
    | some q =>
      refine quiet_ilock.bind fun _ => quiet_stat.bind fun st => ?_
      split
      · exact quiet_panic (by decide) (by decide)
      split
      · refine quiet_isdirempty.bind fun b => ?_
        split
        · exact quiet_unlinkEntry _
        · exact quiet_iunlockput.bind fun _ => quiet_iunlockput.bind fun _ => only_pure _
      · exact quiet_unlinkEntry _

/-! ## Walks from any state -/

/-- The node of an inode is as it was, but for its link count and device numbers. -/
def SameNode (s t : State) (i : Inum) : Prop :=
  (t.node i).type = (s.node i).type ∧ (t.node i).ents = (s.node i).ents

/-- Inodes may have been freed since, and no directory has another entry. -/
structure Pruned (s t : State) : Prop where
  node : ∀ i, SameNode s t i ∨ (t.node i).type = none ∧ t.valid i = false
  tables : t.tables = s.tables

namespace Pruned

variable {Q : Unit → State → Prop}

theorem refl (s : State) : Pruned s s := ⟨fun _ => .inl ⟨rfl, rfl⟩, rfl⟩

section

variable (h : Pruned s t)
include h

theorem iget (i : Inum) : Pruned s (iget t i) := by
  refine ⟨fun j => ?_, (iget_same t i).tables.trans h.tables⟩
  rw [SameNode, (iget_same t i).node]
  refine (h.node j).imp_right fun hj => ⟨hj.1, ?_⟩
  rw [Tree.iget]
  split
  · exact hj.2
  · by_cases hji : j = i
    · rw [hji]
      exact update_self ..
    · exact (update_of_ne hji ..).trans hj.2

theorem idup (i : Inum) : Pruned s (idup t i) := ⟨h.node, h.tables⟩

theorem iput (i : Inum) : Pruned s (iput t i) := by
  refine ⟨fun j => ?_, (iput_tables t i).trans h.tables⟩
  rw [Tree.iput]
  split
  · by_cases hji : j = i
    · subst hji
      refine .inr ⟨?_, update_self ..⟩
      dsimp only
      rw [setNode_self]
    · refine (h.node j).imp (fun hj => ?_) fun hj => ⟨?_, (update_of_ne hji ..).trans hj.2⟩
      · rw [SameNode]
        dsimp only
        rw [setNode_of_ne _ hji]
        exact hj
      · dsimp only
        rw [setNode_of_ne _ hji]
        exact hj.1
  · exact h.node j

/-- A lock is given on an inode that has not been freed. -/
theorem wp_ilock (hQ : ∀ u, Pruned s u → SameNode s u ip → Q () u) :
    wp handle (Calm room) (Fs.ilock ip) Q t := by
  have hrun : run handle (Fs.ilock ip) t = ilock t ip := run_op _
  rw [wp, hrun, ilock]
  by_cases hpos : t.ref ip < 1
  · rw [if_pos hpos]
    exact .of_ne (by decide) (by decide)
  by_cases hlock : t.locked ip = true
  · rw [if_neg hpos, if_pos hlock]
    exact .of_ne (by decide) (by decide)
  rw [if_neg hpos, if_neg hlock]
  by_cases hv : t.valid ip = true
  · rw [if_pos hv]
    refine hQ _ ⟨h.node, h.tables⟩ ((h.node ip).resolve_right fun hp => ?_)
    rw [hp.2] at hv
    cases hv
  by_cases hty : (t.node ip).type = none
  · rw [if_neg hv, if_pos hty]
    exact .of_ne (by decide) (by decide)
  rw [if_neg hv, if_neg hty]
  refine hQ _ ⟨fun j => ?_, h.tables⟩ ((h.node ip).resolve_right fun hp => hty hp.1)
  refine (h.node j).imp_right fun hj => ⟨hj.1, ?_⟩
  have hne : j ≠ ip := by
    rintro rfl
    exact hty hj.1
  exact (update_of_ne hne ..).trans hj.2

theorem wp_iunlock (hQ : ∀ u, Pruned s u → u.node = t.node → Q () u) :
    wp handle (Calm room) (Fs.iunlock ip) Q t := by
  have hrun : run handle (Fs.iunlock ip) t = iunlock t ip := run_op _
  rw [wp, hrun, iunlock]
  by_cases hno : t.locked ip = false ∨ t.ref ip < 1
  · rw [if_pos hno]
    exact .of_ne (by decide) (by decide)
  · rw [if_neg hno]
    exact hQ _ ⟨h.node, h.tables⟩ rfl

theorem wp_iunlockput (hQ : ∀ u, Pruned s u → Q () u) :
    wp handle (Calm room) (iunlockput ip) Q t := by
  rw [iunlockput, wp_bind]
  refine h.wp_iunlock fun u hu _ => ?_
  rw [wp_iput]
  exact hQ _ (hu.iput ip)

/-- **A walk from any state.**  If it ends somewhere, the names led there at the start. -/
theorem wp_walk :
    wp handle (Calm room) (walk parent ip names last) (fun r u => Pruned s u ∧
      ∀ x, r = some x → resolve s.node parent ip names last = some x) t := by
  induction names generalizing ip last t with
  | nil =>
    rw [walk, resolve]
    split
    · rw [wp_bind, wp_iput, wp_pure]
      exact ⟨h.iput ip, by rintro x ⟨⟩⟩
    · exact ⟨h, by rintro x ⟨⟩; rfl⟩
  | cons name rest ih =>
    rw [walk, wp_bind]
    refine h.wp_ilock fun u hu hsame => ?_
    rw [wp_bind, wp_stat, stat, resolve]
    simp only [hsame.1]
    split
    · rw [wp_bind]
      exact hu.wp_iunlockput fun v hv => ⟨hv, by rintro x ⟨⟩⟩
    · rename_i hdir
      rw [not_not] at hdir
      split
      · rw [wp_bind]
        exact hu.wp_iunlock fun v hv _ => ⟨hv, by rintro x ⟨⟩; rfl⟩
      · have hl : lookup (u.node ip) name = lookup (s.node ip) name := by
          rw [lookup, lookup, hsame.2]
        rw [wp_bind, wp_dirlookup (by rw [hsame.1, hdir]), hl]
        cases lookup (s.node ip) name with
        | none =>
          simp only [afterLookup, wp_bind]
          exact hu.wp_iunlockput fun v hv => ⟨hv, by rintro x ⟨⟩⟩
        | some r =>
          simp only [afterLookup, wp_bind]
          exact (hu.iget r.1).wp_iunlockput fun v hv => ih hv

theorem wp_namex :
    wp handle (Calm room) (namex p path parent) (fun r u => Pruned s u ∧
      ∀ x, r = some x →
        resolve s.node parent (start s.tables p path) (elems path) [] = some x) t := by
  rw [namex, start]
  split
  · rw [wp_bind, wp_iget]
    exact (h.iget ROOTINO).wp_walk
  · simp only [myproc, wp_bind, wp_tables, wp_pure, wp_idup, h.tables]
    exact (h.idup _).wp_walk

end

end Pruned

/-! ## Making a name -/

/-- The links of an inode do not matter. -/
theorem Pruned.iupdate (h : Pruned s t) (major minor nlink : ℤ) : Pruned s
    (t.setNode ip { t.node ip with major := major, minor := minor, nlink := nlink }) := by
  refine ⟨fun j => ?_, h.tables⟩
  by_cases hj : j = ip
  · rw [SameNode, hj, setNode_self]
    exact h.node ip
  · rw [SameNode, setNode_of_ne _ hj]
    exact h.node j

/-- A name is made where there is room. -/
theorem wp_dirlink_room {Q : Bool → State → Prop} {inum : Inum}
    (hd : (t.node dp).type = some .dir) (hroom : HasRoom (t.node dp).ents)
    (hold : ∀ u, Q false u) (hnew : Q true (t.setNode dp ((t.node dp).link ⟨inum, name⟩))) :
    wp handle R (dirlink dp name inum) Q t :=
  wp_dirlink hd (fun _ h => absurd hroom h) (fun _ _ _ => hold _) fun _ _ => hnew

/-- A name is made in a directory as it was. -/
theorem wp_dirlink_calm {Q : Bool → State → Prop} {inum : Inum} {n : Node}
    (hdir : n.type = some .dir) (htype : (t.node dp).type = n.type)
    (hents : (t.node dp).ents = n.ents)
    (hroom : room → lookup n name = none → HasRoom n.ents)
    (hold : lookup n name ≠ none → ∀ u, Q false u)
    (hnew : Q true (t.setNode dp ((t.node dp).link ⟨inum, name⟩))) :
    wp handle (Calm room) (dirlink dp name inum) Q t := by
  have hl : lookup (t.node dp) name = lookup n name := by rw [lookup, lookup, hents]
  refine wp_dirlink (htype.trans hdir) (fun hnone hfull => ⟨fun hr => ?_, by decide⟩)
    (fun ip off h => hold ?_ _) fun _ _ => hnew
  · rw [hl] at hnone
    rw [hents] at hfull
    exact absurd (hroom hr hnone) hfull
  · rw [← hl, h]
    simp

theorem wp_sysLink_calm {old new : List Char}
    (hroom : room → linkSource s p old ≠ none → ∀ dp ∈ newName s p new, HasRoom (s.node dp).ents) :
    wp handle (Calm room) (sysLink p old new) (fun _ _ => True) s := by
  rw [sysLink, namei, wp_bind, wp_bind]
  refine (Pruned.refl s).wp_namex.mono fun r t h => ?_
  obtain ⟨ht, hr⟩ := h
  cases r with
  | none => trivial
  | some r =>
    obtain ⟨ip, last⟩ := r
    have hnamei : s.namei p old = some ip := by rw [State.namei, hr _ rfl]; rfl
    simp only [wp_pure, Option.map_some, wp_bind]
    refine ht.wp_ilock fun u hu hsame => ?_
    rw [wp_bind, wp_stat, stat]
    dsimp only
    split
    · exact wp_calm (quiet_iunlockput.bind fun _ => only_pure _)
    rename_i hfile
    rw [hsame.1] at hfile
    have hsource : linkSource s p old ≠ none := by
      rw [linkSource_eq_some hnamei hfile]
      simp
    simp only [addLinks, wp_bind, wp_stat, wp_iupdate]
    refine (hu.iupdate _ _ _).wp_iunlock fun v hv _ => ?_
    rw [wp_bind]
    refine hv.wp_namex.mono fun q w h => ?_
    obtain ⟨hw, hq⟩ := h
    cases q with
    | none => exact wp_calm quiet_linkBad
    | some q =>
      obtain ⟨dp, name⟩ := q
      have hparent : s.nameiparent p new = some (dp, name) := hq _ rfl
      rw [wp_bind]
      refine hw.wp_ilock fun x hx hsame' => ?_
      rw [wp_bind]
      refine wp_dirlink_calm (nameiparent_dir hparent) hsame'.1 hsame'.2
        (fun hr hl => hroom hr hsource dp (newName_eq_some hparent hl)) (fun _ y => ?_) ?_
      · exact wp_calm (quiet_iunlockput.bind fun _ => quiet_linkBad)
      · exact wp_calm (quiet_iunlockput.bind fun _ => quiet_iput.bind fun _ => only_pure _)

/-- The nodes are as they were when a lock is given. -/
theorem wp_ilock_node {Q : Unit → State → Prop} (hQ : ∀ u, u.node = t.node → Q () u) :
    wp handle (Calm room) (Fs.ilock ip) Q t := by
  have hrun : run handle (Fs.ilock ip) t = ilock t ip := run_op _
  rw [wp, hrun]
  cases hr : ilock t ip with
  | error e => exact handle_calm (o := .ilock ip) trivial hr
  | ok r =>
    refine hQ _ ?_
    rw [ilock] at hr
    grind

theorem wp_ialloc_node {type : FileType} {Q : Inum → State → Prop}
    (hQ : ∀ i u, (t.node i).type = none →
      u.node = update t.node i { Node.free with type := some type } → Q i u) :
    wp handle (Calm room) (Fs.ialloc type) Q t := by
  have hrun : run handle (Fs.ialloc type) t = ialloc t type := run_op _
  rw [wp, hrun, ialloc]
  cases hfind : (List.range' 1 (NINODES - 1)).find? fun i => (t.node i).type = none with
  | none => exact .of_ne (by decide) (by decide)
  | some i => exact hQ i _ (by simpa using List.find?_some hfind) (iget_same _ i).node

theorem wp_create_calm {type : FileType} {major minor : ℤ}
    (hroom : room → ∀ dp ∈ newName s p path, HasRoom (s.node dp).ents) :
    wp handle (Calm room) (create p path type major minor) (fun _ _ => True) s := by
  rw [create, nameiparent, wp_bind]
  refine (Pruned.refl s).wp_namex.mono fun r t h => ?_
  obtain ⟨ht, hr⟩ := h
  cases r with
  | none => trivial
  | some r =>
    obtain ⟨dp, name⟩ := r
    have hparent : s.nameiparent p path = some (dp, name) := hr _ rfl
    have hdir := nameiparent_dir hparent
    rw [wp_bind]
    refine ht.wp_ilock fun u hu hsame => ?_
    have hl : lookup (u.node dp) name = lookup (s.node dp) name := by
      rw [lookup, lookup, hsame.2]
    rw [wp_bind, wp_dirlookup (hsame.1.trans hdir), hl]
    cases hfound : lookup (s.node dp) name with
    | some q =>
      refine wp_calm (quiet_iunlockput.bind fun _ => quiet_ilock.bind fun _ =>
        quiet_stat.bind fun st => ?_)
      split
      · exact only_pure _
      · exact quiet_iunlockput.bind fun _ => only_pure _
    | none =>
      have hcreate : room → lookup (s.node dp) name = none → HasRoom (s.node dp).ents :=
        fun hr hl => hroom hr dp (newName_eq_some hparent hl)
      -- Nothing has been entered in the directory since its lock was taken.
      have hend : ∀ {v : State} {ip : Inum}, (v.node dp).type = (s.node dp).type →
          (v.node dp).ents = (s.node dp).ents →
          wp handle (Calm room)
            (do
              if ¬(← dirlink dp name ip) then Fs.panic .createDirlink
              else
                iunlockput dp
                return some ip) (fun _ _ => True) v := by
        intro v ip htype hents
        rw [wp_bind]
        refine wp_dirlink_calm hdir htype hents hcreate (fun h => absurd hfound h) ?_
        exact wp_calm (quiet_iunlockput.bind fun _ => only_pure _)
      simp only [afterLookup]
      rw [wp_bind]
      refine wp_ialloc_node fun ip v hfree hv => ?_
      have hne : dp ≠ ip := by
        rintro rfl
        rw [hsame.1, hdir] at hfree
        cases hfree
      rw [wp_bind]
      refine wp_ilock_node fun w hw => ?_
      rw [wp_bind, wp_iupdate]
      have hdp : ∀ n, (w.setNode ip n).node dp = u.node dp := by
        intro n
        rw [setNode_of_ne _ hne, hw, hv, update_of_ne hne]
      have hents : (w.node ip).ents = [] := by rw [hw, hv, update_self]; rfl
      dsimp only
      split
      · rename_i htype
        have hdirip : (w.node ip).type = some .dir := by
          rw [hw, hv, update_self, htype]
        simp only [addLinks, wp_bind, wp_stat, wp_iupdate]
        generalize hm : (w.setNode ip _).setNode dp _ = x
        have hxip : (x.node ip).type = some .dir ∧ (x.node ip).ents = [] := by
          rw [← hm, setNode_of_ne _ hne.symm, setNode_self]
          exact ⟨hdirip, hents⟩
        have hxdp : (x.node dp).type = (s.node dp).type ∧
            (x.node dp).ents = (s.node dp).ents := by
          rw [← hm, setNode_self, hdp]
          exact hsame
        refine wp_dirlink_room hxip.1 (.inr (by rw [hxip.2]; decide)) (fun y => ?_) ?_
        · exact .of_ne (by decide) (by decide)
        rw [if_neg (by simp)]
        rw [wp_bind]
        refine wp_dirlink_room ?_ (.inr ?_) (fun y => ?_) ?_
        · rw [setNode_self]
          exact hxip.1
        · rw [setNode_self, Node.link, hxip.2]
          exact (by decide : 1 < maxEnts)
        · exact .of_ne (by decide) (by decide)
        · refine hend ?_ ?_
          · rw [setNode_of_ne _ hne, setNode_of_ne _ hne]
            exact hxdp.1
          · rw [setNode_of_ne _ hne, setNode_of_ne _ hne]
            exact hxdp.2
      · exact hend (by rw [hdp, hsame.1]) (by rw [hdp, hsame.2])

/-! ## Calls -/

/-- The calls that make and remove names. -/
def naming : Call → Bool
  | .openFile _ _ | .mkdir _ | .mknod _ _ _ | .link _ _ | .unlink _ => true
  | _ => false

/-- The directory in which a call would make a name has room for it. -/
def Room (s : State) (a : Action) : Prop := ∀ dp ∈ newNameIn s a, HasRoom (s.node dp).ents

instance (s : State) (a : Action) : Decidable (Room s a) :=
  Option.decidableForallMem (newNameIn s a)

theorem wp_makeNode_calm {type : FileType} {major minor : ℤ}
    (hroom : room → ∀ dp ∈ newName s p path, HasRoom (s.node dp).ents) :
    wp handle (Calm room) (makeNode p path type major minor) (fun _ _ => True) s := by
  rw [makeNode, wp_bind]
  refine (wp_create_calm hroom).mono fun r t _ => ?_
  cases r with
  | none => trivial
  | some ip => exact wp_calm (quiet_iunlockput.bind fun _ => only_pure _)

theorem wp_sysOpen_calm {omode : ℕ} (hroom : room → omode &&& O_CREATE ≠ 0 →
      ∀ dp ∈ newName s p path, HasRoom (s.node dp).ents) :
    wp handle (Calm room) (sysOpen p path omode) (fun _ _ => True) s := by
  rw [sysOpen]
  split
  · rename_i hcreate
    rw [wp_bind]
    refine (wp_create_calm fun hr => hroom hr hcreate).mono fun r t _ => ?_
    cases r with
    | none => trivial
    | some ip => exact wp_calm (quiet_openInode omode)
  · refine wp_calm ((quiet_namex.bind fun _ => only_pure _).bind fun r => ?_)
    cases r with
    | none => exact only_pure _
    | some ip =>
      refine quiet_ilock.bind fun _ => quiet_stat.bind fun st => ?_
      split
      · exact quiet_iunlockput.bind fun _ => only_pure _
      · exact quiet_openInode omode

/-- A call, from any state. -/
theorem wp_naming {a : Action} (ha : naming a.call = true) :
    wp handle (Calm (Room s a)) (a.call.prog a.pid) (fun _ _ => True) s := by
  obtain ⟨p, c⟩ := a
  cases c with
  | openFile path omode =>
    refine wp_sysOpen_calm fun hr hcreate dp hdp => hr dp ?_
    simp only [newNameIn]
    rw [if_pos hcreate]
    exact hdp
  | mkdir path => exact wp_makeNode_calm fun hr => hr
  | mknod path major minor => exact wp_makeNode_calm fun hr => hr
  | link old new =>
    refine wp_sysLink_calm fun hr hsource dp hdp => hr dp ?_
    simp only [newNameIn]
    rw [if_neg hsource]
    exact hdp
  | unlink path => exact wp_calm quiet_sysUnlink
  | _ => cases ha

theorem dirlink_full {inum : Inum} (hd : (s.node dp).type = some .dir)
    (hl : lookup (s.node dp) name = none) (hfull : ¬HasRoom (s.node dp).ents) :
    run handle (dirlink dp name inum) s = .error .dirlink := by
  have hwp : wp handle (· = .dirlink) (dirlink dp name inum) (fun _ _ => False) s := by
    refine wp_dirlink hd (fun _ _ => rfl) (fun ip off h => ?_) fun _ => hfull
    rw [hl] at h
    cases h
  cases hr : run handle (dirlink dp name inum) s with
  | ok r => exact (hwp.of_ok hr).elim
  | error e => rw [hwp.of_error hr]

/-- **Adding names.**  In any state, `dirlink` returns from a directory exactly when the name is
there already, or there is an empty entry or fewer entries than a file has room for.  No call
reaches the panic of `create` after `dirlink`, and none that of `dirlink` where there is room in
the directory in which it would make a name. -/
theorem adding_names (s : State) (a : Action) (ha : naming a.call = true) :
    (∀ dp name inum, (s.node dp).type = some .dir →
      ((∃ b t, run handle (dirlink dp name inum) s = .ok (b, t)) ↔
        (lookup (s.node dp) name = none → HasRoom (s.node dp).ents))) ∧
    run handle (a.call.prog a.pid) s ≠ .error .createDirlink ∧
    (Room s a → run handle (a.call.prog a.pid) s ≠ .error .dirlink) := by
  refine ⟨fun dp name inum hd => ⟨fun h hl => ?_, fun h => ?_⟩, fun herr => ?_, fun hr herr => ?_⟩
  · obtain ⟨b, t, hrun⟩ := h
    by_contra hfull
    rw [dirlink_full hd hl hfull] at hrun
    cases hrun
  · have hwp : wp handle (fun _ => False) (dirlink dp name inum) (fun _ _ => True) s :=
      wp_dirlink hd (fun hl hfull => hfull (h hl)) (fun _ _ _ => trivial) fun _ _ => trivial
    obtain ⟨b, t, hrun, -⟩ := hwp.exists_run
    exact ⟨b, t, hrun⟩
  · exact ((wp_naming ha).of_error herr).2 rfl
  · exact ((wp_naming ha).of_error herr).1 hr rfl

/-- There is room in the root directory that `mkfs` makes. -/
theorem adding_names_boot :
    run handle (sysMkdir 0 ['/', 'd']) (boot []) ≠ .error .dirlink :=
  (adding_names (boot []) (initCall (.mkdir ['/', 'd'])) rfl).2.2 (by decide)

/-! ## A full directory -/

/-- A lower-case letter. -/
def letter (n : ℕ) : Char := Char.ofNat (97 + n)

/-- Three letters, different for each number below 26³. -/
def entryName (k : ℕ) : Name := [letter (k / 676), letter (k / 26 % 26), letter (k % 26)]

theorem letter_ne_slash : ∀ n < 26, letter n ≠ '/' := by decide

theorem letter_inj : ∀ m < 26, ∀ n < 26, letter m = letter n → m = n := by decide

theorem entryName_inj {j k : ℕ} (hj : j < 17576) (hk : k < 17576)
    (h : entryName j = entryName k) : j = k := by
  simp only [entryName, List.cons.injEq, and_true] at h
  have h₁ := letter_inj _ (by omega) _ (by omega) h.1
  have h₂ := letter_inj _ (by omega) _ (by omega) h.2.1
  have h₃ := letter_inj _ (by omega) _ (by omega) h.2.2
  omega

theorem elems_entryName {k : ℕ} (hk : k < 17576) : elems ('/' :: entryName k) = [entryName k] := by
  have h₁ := letter_ne_slash (k / 676) (by omega)
  have h₂ := letter_ne_slash (k / 26 % 26) (by omega)
  have h₃ := letter_ne_slash (k % 26) (by omega)
  simp [elems, entryName, elemsUpTo, skipelem, h₁, h₂, h₃, DIRSIZ]

/-- In this directory, the inode 2 has the name `f` and the first `k` of the names of three
letters. -/
structure Filled (k : ℕ) (n : Node) : Prop where
  dir : n.type = some .dir
  linked : n.nlink ≠ 0
  entries : ∀ e ∈ n.ents, e.inum ≠ 0 → e.inum = ROOTINO ∧ (e.name = dot ∨ e.name = dotdot) ∨
    e.inum = 2 ∧ (e.name = ['f'] ∨ ∃ j < k, e.name = entryName j)
  named : ⟨2, ['f']⟩ ∈ n.ents
  length : n.ents.length ≤ maxEnts
  used : n.ents.countP (fun e => decide (e.inum ≠ 0)) = k + 3

/-- An entry in use stays when another is made. -/
theorem mem_insertEnt_of_mem {es : List Dirent} {e x : Dirent} (hx : x ∈ es) (h0 : x.inum ≠ 0) :
    x ∈ insertEnt es e := by
  have hin : 0 < es.countP (fun y => decide (y = x)) :=
    List.countP_pos_iff.mpr ⟨x, hx, decide_eq_true rfl⟩
  have hcount : (insertEnt es e).countP (fun y => decide (y = x)) = _ :=
    countP_insertEnt fun y hy => by rw [of_decide_eq_true hy]; exact h0
  obtain ⟨y, hy, hyx⟩ := List.countP_pos_iff.mp (hin.trans_le (hcount ▸ Nat.le_add_right _ _))
  rwa [← of_decide_eq_true hyx]

namespace Filled

variable {k : ℕ} {n : Node}

theorem lookup_f (h : Filled k n) : ∃ off, lookup n ['f'] = some (2, off) := by
  cases hl : lookup n ['f'] with
  | none => exact absurd rfl (lookup_eq_none hl h.named (by decide))
  | some r =>
    obtain ⟨ip, off⟩ := r
    obtain ⟨j, -, hj, h0⟩ := lookup_eq_some hl
    rcases h.entries _ (List.mem_of_getElem? hj) h0 with ⟨-, hn | hn⟩ | ⟨hi, -⟩
    · cases hn
    · cases hn
    · exact ⟨off, by rw [show ip = 2 from hi]⟩

/-- The next name is not there yet. -/
theorem lookup_entryName (h : Filled k n) (hk : k < 17576) : lookup n (entryName k) = none := by
  cases hl : lookup n (entryName k) with
  | none => rfl
  | some r =>
    obtain ⟨ip, off⟩ := r
    obtain ⟨j, -, hj, h0⟩ := lookup_eq_some hl
    rcases h.entries _ (List.mem_of_getElem? hj) h0 with ⟨-, hn | hn⟩ | ⟨-, hn | ⟨j, hj, hn⟩⟩
    · simp [entryName, dot] at hn
    · simp [entryName, dotdot] at hn
    · simp [entryName] at hn
    · have := entryName_inj hk (by omega) hn
      omega

theorem hasRoom_iff (h : Filled k n) : HasRoom n.ents ↔ k + 3 < maxEnts := by
  have hlen := h.length
  have hused := h.used
  rw [HasRoom]
  by_cases hempty : emptyIdx n.ents < n.ents.length
  · refine iff_of_true (.inl hempty) ?_
    obtain ⟨e, he, h0⟩ := List.findIdx_lt_length.mp hempty
    have hlt : n.ents.countP (fun e => decide (e.inum ≠ 0)) < n.ents.length :=
      List.countP_lt_length_iff.mpr ⟨e, he, by simpa using h0⟩
    omega
  · have hall : n.ents.countP (fun e => decide (e.inum ≠ 0)) = n.ents.length := by
      refine List.countP_eq_length.mpr fun e he => ?_
      by_contra h0
      exact hempty (List.findIdx_lt_length.mpr ⟨e, he, by simpa using h0⟩)
    omega

/-- The next name is entered. -/
theorem link (h : Filled k n) (hk : k + 3 < maxEnts) :
    Filled (k + 1) (n.link ⟨2, entryName k⟩) where
  dir := h.dir
  linked := h.linked
  entries e he h0 := by
    rcases mem_insertEnt he with rfl | he
    · exact .inr ⟨rfl, .inr ⟨k, Nat.lt_succ_self k, rfl⟩⟩
    · refine (h.entries e he h0).imp_right fun h2 => ⟨h2.1, h2.2.imp_right ?_⟩
      rintro ⟨j, hj, hn⟩
      exact ⟨j, by omega, hn⟩
  named := mem_insertEnt_of_mem h.named (by decide)
  length := by
    have hroom := h.hasRoom_iff.mpr hk
    have hlen := h.length
    rw [Node.link, insertEnt]
    split
    · rw [List.length_set]
      exact hlen
    · rw [List.length_append, List.length_singleton]
      rw [HasRoom] at hroom
      omega
  used := by
    rw [Node.link, countP_insertEnt (fun x hx => of_decide_eq_true hx), h.used]
    simp

end Filled

/-- The root is the only directory, the file with inode 2 has `k + 1` names in it and `l + 1`
links, and there is a free inode. -/
structure Crowded (k l : ℕ) (t : State) : Prop where
  root : Filled k (t.node ROOTINO)
  dirs : ∀ d, (t.node d).type = some .dir → d = ROOTINO
  file : (t.node 2).type = some .file
  links : (t.node 2).nlink = l + 1
  free : (t.node 3).type = none
  unlocked : ∀ i, t.locked i = false
  init : t.tables.proc 0 ≠ none

namespace Crowded

variable {k l : ℕ}

theorem boot : Crowded 0 0 (boot [(['f'], 0)]) where
  root := ⟨by decide, by decide, by decide, by decide, by decide, by decide⟩
  dirs _ := boot_dir
  file := by decide
  links := by decide
  free := by decide
  unlocked _ := rfl
  init := by decide

theorem of_holds {L : List Inum} (h : Crowded k l s) (ht : Path.Holds s L none t) :
    Crowded k l t where
  root := by rw [ht.node]; exact h.root
  dirs := by rw [ht.node]; exact h.dirs
  file := by rw [ht.node]; exact h.file
  links := by rw [ht.node]; exact h.links
  free := by rw [ht.node]; exact h.free
  unlocked i := by
    rw [← Bool.not_eq_true]
    exact fun hl => by cases (ht.locked i).mp hl
  init := by rw [ht.tables]; exact h.init

section

variable (h : Crowded k l t)
include h

theorem iput : Crowded k l (iput t 2) := by
  have hkeep : ¬(t.ref 2 = 1 ∧ t.valid 2 = true ∧ (t.node 2).nlink = 0) := by
    rw [h.links]
    omega
  rw [Tree.iput, if_neg hkeep]
  exact ⟨h.root, h.dirs, h.file, h.links, h.free, h.unlocked, h.init⟩

theorem kept_root : Path.Kept t ROOTINO :=
  ⟨by rw [h.root.dir]; simp, fun h0 => absurd h0 h.root.linked⟩

theorem kept_file : Path.Kept t 2 := by
  refine ⟨by rw [h.file]; simp, fun h0 => ?_⟩
  rw [h.links] at h0
  omega

theorem walkable : Path.Walkable t ROOTINO := by
  refine ⟨fun d hd e he h0 => ?_, h.kept_root, h.unlocked⟩
  rw [h.dirs d hd] at he
  rcases h.root.entries e he h0 with ⟨hi, -⟩ | ⟨hi, -⟩
  · rw [hi]
    exact h.kept_root
  · rw [hi]
    exact h.kept_file

/-- The file gets a link. -/
theorem addLink (hl : l < 32766) : Crowded k (l + 1)
    (t.setNode 2 { t.node 2 with nlink := short ((t.node 2).nlink + 1) }) where
  root := by
    rw [setNode_of_ne _ (by decide)]
    exact h.root
  dirs d hd := by
    refine h.dirs d (Eq.trans ?_ hd)
    by_cases h2 : d = 2
    · rw [h2, setNode_self]
    · rw [setNode_of_ne _ h2]
  file := by
    rw [setNode_self]
    exact h.file
  links := by
    rw [setNode_self, h.links]
    rw [short_eq (by omega) (by omega)]
    push_cast
    rfl
  free := by
    rw [setNode_of_ne _ (by decide)]
    exact h.free
  unlocked := h.unlocked
  init := h.init

/-- The file gets the next name. -/
theorem enter (hk : k + 3 < maxEnts) : Crowded (k + 1) l
    (t.setNode ROOTINO ((t.node ROOTINO).link ⟨2, entryName k⟩)) where
  root := by
    rw [setNode_self]
    exact h.root.link hk
  dirs d hd := by
    by_cases hroot : d = ROOTINO
    · exact hroot
    · rw [setNode_of_ne _ hroot] at hd
      exact h.dirs d hd
  file := by
    rw [setNode_of_ne _ (by decide)]
    exact h.file
  links := by
    rw [setNode_of_ne _ (by decide)]
    exact h.links
  free := by
    rw [setNode_of_ne _ (by decide)]
    exact h.free
  unlocked := h.unlocked
  init := h.init

end

/-- A path of one element that starts at the root. -/
theorem wp_rootPath {Q : Option (Inum × Name) → State → Prop} (h : Crowded k l s)
    (parent : Bool) (helems : elems ('/' :: name) = [name])
    (hQ : ∀ t, Path.Holds s (Path.found (resolve s.node parent ROOTINO [name] [])) none t →
      Q (resolve s.node parent ROOTINO [name] []) t) :
    wp handle R (namex 0 ('/' :: name) parent) Q s := by
  obtain ⟨me, hme⟩ := Option.ne_none_iff_exists'.mp h.init
  have hwalk : wp handle R (Path.namex 0 ('/' :: name) parent) _ s :=
    Path.wp_namex parent hme h.walkable
  rw [Path.namex_eq, ← Path.elems_eq, helems] at hwalk
  refine hwalk.mono fun r t hr => ?_
  obtain ⟨rfl, ht⟩ := hr
  exact hQ t ht

/-- The call gives the file a link, and comes to `dirlink` with the root locked. -/
theorem wp_sysLink {Q : Bool → State → Prop} (h : Crowded k l s) (hk : k < 17576)
    (hl : l < 32766)
    (hQ : ∀ t u, Crowded k (l + 1) t → Path.Holds t [ROOTINO] (some ROOTINO) u →
      wp handle R
        (do
          if ← dirlink ROOTINO (entryName k) 2 then
            iunlockput ROOTINO
            Fs.iput 2
            return true
          else
            iunlockput ROOTINO
            linkBad 2) Q u) :
    wp handle R (sysLink 0 ['/', 'f'] ('/' :: entryName k)) Q s := by
  obtain ⟨off, hf⟩ := h.root.lookup_f
  have hold : resolve s.node false ROOTINO [['f']] [] = some (2, ['f']) := by
    simp [resolve, h.root.dir, hf]
  rw [sysLink, namei, wp_bind, wp_bind]
  refine h.wp_rootPath false (by decide) fun t ht => ?_
  rw [hold] at ht ⊢
  simp only [wp_pure, Option.map_some, wp_bind]
  refine ht.lock List.mem_cons_self h.kept_file fun u hu => ?_
  rw [wp_bind, wp_stat, stat, hu.node, if_neg (by simp [h.file]), wp_bind, wp_addLinks,
    wp_bind, hu.node]
  refine (hu.setNode 2 _).unlock List.mem_cons_self fun v hv => ?_
  have hcv := (h.addLink hl).of_holds hv
  have hnew : resolve v.node true ROOTINO [entryName k] [] = some (ROOTINO, entryName k) := by
    simp [resolve, hcv.root.dir]
  rw [nameiparent, wp_bind]
  refine hcv.wp_rootPath true (elems_entryName hk) fun w hw => ?_
  rw [hnew] at hw ⊢
  simp only [wp_bind]
  refine hw.lock List.mem_cons_self hcv.kept_root fun x hx => ?_
  exact hQ v x hcv hx

/-- While there is room, the call succeeds. -/
theorem wp_link (h : Crowded k l s) (hk : k + 3 < maxEnts) (hl : l < 32766) :
    wp handle R (sysLink 0 ['/', 'f'] ('/' :: entryName k))
      (fun _ t => Crowded (k + 1) (l + 1) t) s := by
  have hlt : k < 17576 := by
    have : maxEnts = 4480 := rfl
    omega
  refine h.wp_sysLink hlt hl fun t u ht hu => ?_
  rw [wp_bind]
  refine wp_dirlink ?_ ?_ ?_ ?_
  · rw [hu.node]
    exact ht.root.dir
  · rw [hu.node]
    exact fun _ hfull => absurd (ht.root.hasRoom_iff.mpr hk) hfull
  · rw [hu.node, ht.root.lookup_entryName hlt]
    intro ip off hno
    cases hno
  · intro _ _
    rw [hu.node]
    have henter := ht.enter hk
    rw [if_pos rfl, wp_bind]
    refine (hu.setNode ROOTINO _).unlockput henter.kept_root fun v hv => ?_
    rw [wp_bind, wp_iput, wp_pure]
    exact (henter.of_holds hv).iput

/-- Without room, the call panics. -/
theorem wp_full (h : Crowded k l s) (hk : k + 3 = maxEnts) (hl : l < 32766) :
    wp handle (· = .dirlink) (sysLink 0 ['/', 'f'] ('/' :: entryName k))
      (fun _ _ => False) s := by
  have hlt : k < 17576 := by
    have : maxEnts = 4480 := rfl
    omega
  refine h.wp_sysLink hlt hl fun t u ht hu => ?_
  rw [wp_bind]
  refine wp_dirlink ?_ (fun _ _ => rfl) ?_ ?_
  · rw [hu.node]
    exact ht.root.dir
  · rw [hu.node, ht.root.lookup_entryName hlt]
    intro ip off hno
    cases hno
  · rw [hu.node]
    intro _ hroom
    have := ht.root.hasRoom_iff.mp hroom
    omega

end Crowded

/-- A link to the file, under the `k`th name. -/
def linkFile (k : ℕ) : Action := initCall (.link ['/', 'f'] ('/' :: entryName k))

theorem Crowded.step {k : ℕ} (h : Crowded k k s) (hk : k + 3 < maxEnts) :
    ∃ t, step s (linkFile k) = some t ∧ Crowded (k + 1) (k + 1) t := by
  have hmax : maxEnts = 4480 := rfl
  obtain ⟨b, t, hrun, ht⟩ := (h.wp_link hk (by omega)).exists_run
  refine ⟨t, ?_, ht⟩
  have hen : (linkFile k).Enabled s.tables := ⟨h.init, trivial⟩
  have hcall : run handle ((linkFile k).call.prog (linkFile k).pid) s = .ok (b, t) := hrun
  rw [Tree.step, if_pos hen, hcall]

theorem exec_linkFile (n : ℕ) (hn : n + 3 ≤ maxEnts) :
    ∃ t, exec step (boot [(['f'], 0)]) ((List.range n).map linkFile) = some t ∧
      Crowded n n t := by
  induction n with
  | zero => exact ⟨_, rfl, .boot⟩
  | succ n ih =>
    obtain ⟨t, ht, hcrowded⟩ := ih (by omega)
    obtain ⟨u, hu, hnext⟩ := hcrowded.step (by omega)
    refine ⟨u, ?_, hnext⟩
    rw [List.range_succ, List.map_append]
    exact exec_append_eq_some.mpr ⟨t, ht, exec_cons_eq_some.mpr ⟨u, hu, rfl⟩⟩

/-- **A run to the panic.**  A file gets 4477 more names in the root directory, and one more; there
are free inodes. -/
theorem full_directory : ∃ t,
    exec step (boot [(['f'], 0)]) ((List.range 4477).map linkFile) = some t ∧
    (∀ k, naming (linkFile k).call = true) ∧ (t.node 3).type = none ∧
    (linkFile 4477).Enabled t.tables ∧
    run handle ((linkFile 4477).call.prog (linkFile 4477).pid) t = .error .dirlink := by
  obtain ⟨t, ht, h⟩ := exec_linkFile 4477 (by decide)
  refine ⟨t, ht, fun _ => rfl, h.free, ⟨h.init, trivial⟩, ?_⟩
  have hwp := h.wp_full rfl (by decide)
  cases hr : run handle (sysLink 0 ['/', 'f'] ('/' :: entryName 4477)) t with
  | ok r => exact (hwp.of_ok hr).elim
  | error e =>
    rw [← hwp.of_error hr]
    exact hr

end Xv6.Fs.Tree
