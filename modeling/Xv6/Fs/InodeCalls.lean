import Xv6.Fs.InodeRefs

/-!
# The calls count their references

A rule for each function above the inode layer: with the references a call holds counted before
it, they are counted after it.

## Main results

* `Counted.wp_namex`, `Counted.wp_create` — the functions the calls share.
* `Counted.wp_prog` — a call leaves no reference behind but those of the tables.
-/

namespace Xv6.Fs.Entries

open Function Prog
open Tree (Node tableRefs fileRefs cwdRefs lookup lookupFrom afterWalk)

variable {roomy : Prop} {L : List Inum} {s t : State} {ip dp i : Inum} {p : Pid} {me : ProcFiles}
  {name : Name} {path : List Char}

namespace Counted

/-! ## Directories -/

section

variable (h : Counted L s) (hdp : 0 < tableRefs s.tables dp + L.count dp)
include h hdp

theorem wp_dirlookupFrom {Q : Option (Inum × ℕ) → State → Prop} (n k : ℕ)
    (hn : (s.node dp).ents.length = k + n)
    (hroom : roomy → lookupFrom name ((s.node dp).ents.drop k) (direntSize * k) ≠ none →
      inodesInUse s.tables + L.length < NINODE)
    (hnone : lookupFrom name ((s.node dp).ents.drop k) (direntSize * k) = none → Q none s)
    (hsome : ∀ ip off t, lookupFrom name ((s.node dp).ents.drop k) (direntSize * k) = some
    (ip, off) → Counted (ip :: L) t → Same s t → Q (some (ip, off)) t)
    :
    wp handle (Fine roomy) (dirlookupFrom dp name n (direntSize * k)) Q s := by
  induction n generalizing k with
  | zero =>
    rw [dirlookupFrom, wp_pure]
    refine hnone ?_
    rw [List.drop_of_length_le (by omega)]
    rfl
  | succ n ih =>
    have hk : k < (s.node dp).ents.length := by omega
    have hread : Tree.readDirent (s.node dp) (direntSize * k) = some (s.node dp).ents[k] := by
      rw [Tree.readDirent, Nat.mul_div_cancel_left k (by decide), List.getElem?_eq_getElem hk]
    rw [List.drop_eq_getElem_cons hk] at hroom hnone hsome
    rw [dirlookupFrom, wp_bind, h.wp_readDirent hdp, hread]
    simp only [lookupFrom] at hroom hnone hsome ⊢
    split
    · rename_i hhit
      simp only [hhit, ne_eq, not_false_eq_true, and_self, if_true, reduceCtorEq] at hroom hsome
      rw [wp_bind]
      refine h.wp_iget (fun hr => hroom hr (by simp)) fun t ht hst => ?_
      exact hsome _ _ t rfl ht hst
    · rename_i hmiss
      simp only [hmiss, if_false] at hroom hnone hsome
      exact ih (k + 1) (by omega) hroom hnone hsome

/-- `dirlookup` takes a reference to the inode it finds. -/
theorem wp_dirlookup {Q : Option (Inum × ℕ) → State → Prop}
    (hroom : roomy → lookup (s.node dp) name ≠ none → inodesInUse s.tables + L.length < NINODE)
    (hnone : (s.node dp).type = some .dir → lookup (s.node dp) name = none → Q none s)
    (hsome : ∀ ip off t, lookup (s.node dp) name = some (ip, off) → Counted (ip :: L) t →
      Same s t → Q (some (ip, off)) t)
    :
    wp handle (Fine roomy) (dirlookup dp name) Q s := by
  rw [dirlookup, wp_bind, h.wp_stat hdp]
  split
  · rw [wp_panic]
    exact .of_ne (by decide)
  · rename_i hdir
    have hdir : (s.node dp).type = some .dir := not_not.mp hdir
    rw [Node.bytes, if_pos hdir, Tree.rounds_mul]
    exact h.wp_dirlookupFrom hdp _ 0 (by omega) hroom (hnone hdir) hsome

theorem wp_emptyDirent {Q : ℕ → State → Prop} (hQ : ∀ off, Q off s) (n off : ℕ) :
    wp handle (Fine roomy) (emptyDirent dp n off) Q s := by
  induction n generalizing off with
  | zero => exact hQ off
  | succ n ih =>
    rw [emptyDirent, wp_bind, h.wp_readDirent hdp]
    split
    · rw [wp_panic]
      exact .of_ne (by decide)
    · split
      · exact hQ off
      · exact ih _

theorem wp_dirlink {Q : Bool → State → Prop} {inum : Inum}
    (hroom : roomy → lookup (s.node dp) name ≠ none → inodesInUse s.tables + L.length < NINODE)
    (hQ : ∀ b t, Counted L t → t.tables = s.tables → Q b t) :
    wp handle (Fine roomy) (dirlink dp name inum) Q s := by
  rw [dirlink, wp_bind]
  refine h.wp_dirlookup hdp hroom (fun _ _ => ?_) fun ip off t _ ht hst => ?_
  · rw [wp_bind, h.wp_stat hdp, wp_bind]
    refine h.wp_emptyDirent hdp (fun off => ?_) _ _
    rw [wp_bind]
    refine h.wp_writeDirent hdp fun b n => ?_
    split
    · exact hQ true _ (h.setNode dp n) rfl
    · rw [wp_panic]
      exact .of_ne (by decide)
  · simp only [wp_bind]
    exact ht.wp_iput fun u hu htab => hQ false u hu (htab.trans hst.tables)

theorem wp_isdirempty {Q : Bool → State → Prop} (hQ : ∀ b, Q b s) :
    wp handle (Fine roomy) (isdirempty dp) Q s := by
  have hloop : ∀ n off, wp handle (Fine roomy) (isdiremptyFrom dp n off) Q s := by
    intro n
    induction n with
    | zero => exact fun _ => hQ true
    | succ n ih =>
      intro off
      rw [isdiremptyFrom, wp_bind, h.wp_readDirent hdp]
      split
      · rw [wp_panic]
        exact .of_ne (by decide)
      · split
        · exact hQ false
        · exact ih _
  rw [isdirempty, wp_bind, h.wp_stat hdp]
  exact hloop _ _

end

/-! ## Paths -/

/-- A walk holds one reference, and a second one while it goes to the next element. -/
theorem wp_walk {Q : Option (Inum × Name) → State → Prop} {parent : Bool} {names : List Name}
    {last : Name} (h : Counted (ip :: L) s)
    (hroom : roomy → inodesInUse s.tables + L.length + 1 < NINODE)
    (hQ : ∀ r t, Counted (afterWalk L r) t → t.tables = s.tables → Q r t) :
    wp handle (Fine roomy) (walk parent ip names last) Q s := by
  have hip : ∀ {t : State} {M : List Inum}, 0 < tableRefs t.tables ip + (ip :: M).count ip :=
    count_pos _ List.mem_cons_self
  induction names generalizing ip last s with
  | nil =>
    rw [walk]
    split
    · rw [wp_bind]
      exact h.wp_iput fun t ht htab => hQ none t ht htab
    · exact hQ (some (ip, last)) s h rfl
  | cons name rest ih =>
    rw [walk, wp_bind]
    refine h.wp_ilock hip fun u hu hsu => ?_
    rw [wp_bind, hu.wp_stat hip]
    split
    · rw [wp_bind]
      exact hu.wp_iunlockput fun t ht htab => hQ none t ht (htab.trans hsu.tables)
    · split
      · rw [wp_bind]
        exact hu.wp_iunlock hip fun t ht hst =>
          hQ (some (ip, name)) t ht (hst.tables.trans hsu.tables)
      · rw [wp_bind]
        refine hu.wp_dirlookup hip (fun hr _ => ?_) (fun _ _ => ?_) fun next off t _ ht hst => ?_
        · rw [hsu.tables, List.length_cons]
          have := hroom hr
          omega
        · simp only [wp_bind]
          exact hu.wp_iunlockput fun t ht htab => hQ none t ht (htab.trans hsu.tables)
        · simp only [wp_bind]
          refine ht.swap.wp_iunlockput fun v hv htab => ?_
          have hall := htab.trans (hst.tables.trans hsu.tables)
          refine ih hv (fun hr => ?_) (fun r w hw hwt => hQ r w hw (hwt.trans hall))
            (count_pos _ List.mem_cons_self)
          rw [hall]
          exact hroom hr

section

variable (h : Counted L s) (hp : s.tables.proc p = some me)
  (hroom : roomy → inodesInUse s.tables + L.length + 1 < NINODE)
include h hp hroom

/-- The path lookup of a process. -/
theorem wp_namex {Q : Option (Inum × Name) → State → Prop} {parent : Bool}
    (hQ : ∀ r t, Counted (afterWalk L r) t → t.tables = s.tables → Q r t) :
    wp handle (Fine roomy) (namex p path parent) Q s := by
  rw [namex]
  split
  · rw [wp_bind]
    refine h.wp_iget (fun hr => ?_) fun t ht hst => ?_
    · have := hroom hr
      omega
    · refine ht.wp_walk (fun hr => ?_) fun r u hu htab => hQ r u hu (htab.trans hst.tables)
      rw [hst.tables]
      exact hroom hr
  · simp only [myproc, wp_bind, wp_tables, wp_pure, hp, Option.getD_some]
    refine h.wp_idup (Nat.add_pos_left (Tree.tableRefs_cwd_pos hp) _) fun t ht hst => ?_
    refine ht.wp_walk (fun hr => ?_) fun r u hu htab => hQ r u hu (htab.trans hst.tables)
    rw [hst.tables]
    exact hroom hr

theorem wp_namei {Q : Option Inum → State → Prop}
    (hnone : ∀ t, Counted L t → t.tables = s.tables → Q none t)
    (hsome : ∀ ip t, Counted (ip :: L) t → t.tables = s.tables → Q (some ip) t) :
    wp handle (Fine roomy) (namei p path) Q s := by
  rw [namei, wp_bind]
  refine h.wp_namex hp hroom fun r t ht htab => ?_
  cases r with
  | none => exact hnone t ht htab
  | some r => exact hsome r.1 t ht htab

theorem wp_nameiparent {Q : Option (Inum × Name) → State → Prop}
    (hnone : ∀ t, Counted L t → t.tables = s.tables → Q none t)
    (hsome : ∀ dp name t, Counted (dp :: L) t → t.tables = s.tables → Q (some (dp, name)) t) :
    wp handle (Fine roomy) (nameiparent p path) Q s := by
  refine h.wp_namex hp hroom fun r t ht htab => ?_
  cases r with
  | none => exact hnone t ht htab
  | some r => exact hsome r.1 r.2 t ht htab

end

/-! ## Files -/

/-- A file that was unused is in use, and refers to nothing yet. -/
theorem wp_filealloc {Q : Option (Fin NFILE) → State → Prop} (h : Counted L s)
    (hnone : Q none s)
    (hsome : ∀ f t, Counted L t → t.tables.proc = s.tables.proc →
      (t.tables.file f).type = .none → (t.tables.file f).ref = 1 → Q (some f) t) :
    wp handle (Fine roomy) filealloc Q s := by
  rw [filealloc, wp_bind, wp_tables]
  cases hfind : (List.finRange NFILE).find? fun f => (s.tables.file f).ref = 0 with
  | none => exact hnone
  | some f =>
    have hunused := h.unused f (by simpa using List.find?_some hfind)
    simp only [wp_bind, wp_setTables, wp_pure]
    refine hsome f _ (h.setFile_same rfl rfl (by simp)) rfl ?_ (by simp)
    simp only [update_self]
    exact hunused

theorem wp_filedup {Q : Unit → State → Prop} {f : Fin NFILE} (h : Counted L s)
    (hQ : ∀ t, Counted L t → t.tables.proc = s.tables.proc → Q () t) :
    wp handle (Fine roomy) (filedup f) Q s := by
  rw [filedup, wp_bind, wp_tables]
  split
  · rw [wp_panic]
    exact .of_ne (by decide)
  · rw [wp_setTables]
    exact hQ _ (h.setFile_same rfl rfl (by simp)) rfl

/-- The last reference to a file gives up the file's reference to its inode. -/
theorem wp_fileclose {Q : Unit → State → Prop} {f : Fin NFILE} (h : Counted L s)
    (hQ : ∀ t, Counted L t → t.tables.proc = s.tables.proc → Q () t) :
    wp handle (Fine roomy) (fileclose f) Q s := by
  rw [fileclose, wp_bind, wp_tables]
  dsimp only
  split
  · rw [wp_panic]
    exact .of_ne (by decide)
  split
  · rename_i hmany
    rw [wp_setTables]
    refine hQ _ (h.setFile_same rfl rfl fun h0 => ?_) rfl
    simp only at h0
    omega
  · rw [wp_bind, wp_setTables]
    split
    · rename_i htype
      refine Counted.wp_iput ?_ fun t ht htab => hQ t ht (by rw [htab])
      refine h.setFile (fun i => ?_) (by simp)
      simp only [fileRefs, htype, List.count_cons, reduceCtorEq, false_and, if_false, true_and,
        beq_iff_eq, Nat.zero_add]
      exact Nat.add_comm _ _
    · rename_i htype
      rw [wp_pure]
      refine hQ _ (h.setFile (fun i => ?_) (by simp)) rfl
      simp [fileRefs, htype]

theorem wp_setOff {Q : Unit → State → Prop} {f : Fin NFILE} {off : ℕ} (h : Counted L s)
    (hQ : ∀ t, Counted L t → tableRefs t.tables = tableRefs s.tables →
      (t.tables.file f).type = (s.tables.file f).type → Q () t) :
    wp handle (Fine roomy) (setOff f off) Q s := by
  rw [setOff, wp_bind, wp_tables, wp_setTables]
  refine hQ _ (h.setFile_same rfl rfl (h.unused f)) (funext fun i => ?_) (by simp)
  have hrefs := Tree.tableRefs_setFile s.tables f { s.tables.file f with off := off } i
  simp only [fileRefs] at hrefs
  exact Nat.add_right_cancel hrefs

/-- An open file keeps its inode. -/
theorem file_pos {f : Fin NFILE} (htype : (s.tables.file f).type = .inode) :
    0 < tableRefs s.tables (s.tables.file f).ip + L.count (s.tables.file f).ip :=
  Nat.add_pos_left (Tree.tableRefs_file_pos htype) _

/-- A slot of the process table gets other descriptors. -/
theorem setProc_same {ofile : Fin NOFILE → Option (Fin NFILE)} (h : Counted L s)
    (hp : s.tables.proc p = some me) :
    Counted L { s with tables := { s.tables with
      proc := update s.tables.proc p (some { me with ofile := ofile }) } } := by
  refine h.setProc fun i => ?_
  rw [hp]
  rfl

@[simp] theorem wp_myproc {R : Stop → Prop} {Q : ProcFiles → State → Prop} :
    wp handle R (myproc p) Q s ↔ Q ((s.tables.proc p).getD ⟨0, fun _ => none⟩) s := Iff.rfl

@[simp] theorem wp_setProc {R : Stop → Prop} {x : Option ProcFiles} {Q : Unit → State → Prop} :
    wp handle R (Fs.setProc p x) Q s ↔
      Q () { s with tables := { s.tables with proc := update s.tables.proc p x } } :=
  Iff.rfl

theorem wp_argfd {Q : Option (Fin NOFILE × Fin NFILE) → State → Prop} {fd : ℕ}
    {R : Stop → Prop} (hQ : ∀ r, Q r s) : wp handle R (argfd p fd) Q s := by
  rw [argfd, wp_bind, wp_myproc]
  split
  · exact hQ _
  · exact hQ _

theorem wp_fdalloc {Q : Option (Fin NOFILE) → State → Prop} {f : Fin NFILE} (h : Counted L s)
    (hp : s.tables.proc p = some me) (hnone : Q none s)
    (hsome : ∀ fd t, Counted L t → t.tables.file = s.tables.file → Q (some fd) t) :
    wp handle (Fine roomy) (fdalloc p f) Q s := by
  rw [fdalloc, wp_bind, wp_myproc, hp, Option.getD_some]
  cases (List.finRange NOFILE).find? fun fd => me.ofile fd = none with
  | none => exact hnone
  | some fd =>
    rw [wp_bind, wp_setProc, wp_pure]
    exact hsome fd _ (h.setProc_same hp) rfl

/-! ## Reading and writing -/

theorem wp_fileread {Q : Option ℕ → State → Prop} {f : Fin NFILE} {n : ℕ} (h : Counted L s)
    (hQ : ∀ r t, Counted L t → Q r t) : wp handle (Fine roomy) (fileread f n) Q s := by
  rw [fileread, wp_bind, wp_tables]
  dsimp only
  split
  · exact hQ _ s h
  · rename_i hopen
    have hip := file_pos (L := L) (not_not.mp fun hne => hopen (.inr hne))
    rw [wp_bind]
    refine h.wp_ilock hip fun u hu hsu => ?_
    rw [← hsu.tables] at hip
    rw [← hsu.tables, wp_bind, hu.wp_readi hip]
    split
    · rw [wp_bind]
      refine hu.wp_setOff fun v hv htab _ => ?_
      rw [wp_bind]
      exact hv.wp_iunlock (by rw [htab]; exact hip) fun t ht _ => hQ _ t ht
    · rw [wp_bind]
      exact hu.wp_iunlock hip fun t ht _ => hQ _ t ht

theorem wp_filewriteFrom {Q : Bool → State → Prop} {f : Fin NFILE} {pieces : List (List UInt8)}
    (h : Counted L s) (hf : (s.tables.file f).type = .inode) (hQ : ∀ b t, Counted L t → Q b t) :
    wp handle (Fine roomy) (filewriteFrom f pieces) Q s := by
  induction pieces generalizing s with
  | nil => exact hQ true s h
  | cons piece pieces ih =>
    have hip := file_pos (L := L) hf
    rw [filewriteFrom, wp_bind, wp_tables]
    dsimp only
    rw [wp_bind]
    refine h.wp_ilock hip fun u hu hsu => ?_
    rw [← hsu.tables] at hip hf
    rw [← hsu.tables, wp_bind]
    refine hu.wp_writei hip fun r n => ?_
    cases r with
    | none =>
      rw [wp_bind]
      exact (hu.setNode _ n).wp_iunlock hip fun t ht _ => hQ false t ht
    | some m =>
      rw [wp_bind]
      refine (hu.setNode _ n).wp_setOff fun v hv htab hvf => ?_
      rw [wp_bind]
      refine hv.wp_iunlock (by rw [htab]; exact hip) fun w hw hvw => ?_
      dsimp only
      split
      · rw [wp_panic]
        exact .of_ne (by decide)
      · refine ih hw ?_
        rw [hvw.tables, hvf]
        exact hf

theorem wp_filewrite {Q : Bool → State → Prop} {f : Fin NFILE} {data : List UInt8}
    (h : Counted L s) (hQ : ∀ b t, Counted L t → Q b t) :
    wp handle (Fine roomy) (filewrite f data) Q s := by
  rw [filewrite, wp_bind, wp_tables]
  dsimp only
  split
  · exact hQ false s h
  · rename_i hopen
    exact h.wp_filewriteFrom (not_not.mp fun hne => hopen (.inr hne)) hQ

/-! ## New inodes -/

/-- `ialloc` takes a reference to an inode that was free. -/
theorem wp_ialloc {Q : Inum → State → Prop} {type : FileType} (h : Counted L s)
    (hroom : roomy → inodesInUse s.tables + L.length < NINODE)
    (hQ : ∀ i t, (s.node i).type = none → Counted (i :: L) t → t.tables = s.tables →
      (∀ j, j ≠ i → t.node j = s.node j) → Q i t) :
    wp handle (Fine roomy) (Fs.ialloc type) Q s := by
  have hrun : run handle (Fs.ialloc type) s = ialloc s type := run_op _
  rw [wp, hrun, ialloc]
  cases hfind : (List.range' 1 (Tree.NINODES - 1)).find? fun i => (s.node i).type = none with
  | none => exact .of_ne (by decide)
  | some i =>
    have hfree : (s.node i).type = none := by simpa using List.find?_some hfind
    have hset := h.setNode i { Node.free with type := some type }
    simp only [Bind.bind, Except.bind]
    rcases hset.iget i with ⟨t, ht, hcount, hsame⟩ | ⟨herr, hfull⟩
    · rw [ht]
      refine hQ i t hfree hcount hsame.tables fun j hj => ?_
      rw [hsame.node]
      exact update_of_ne hj _ _
    · rw [herr]
      refine ⟨by simp, fun hr => ?_⟩
      have := hroom hr
      simp only [State.setNode] at hfull
      omega

theorem wp_addLinks {Q : Unit → State → Prop} {n : ℤ} (h : Counted L s)
    (hip : 0 < tableRefs s.tables ip + L.count ip) (hQ : ∀ m, Q () (s.setNode ip m)) :
    wp handle (Fine roomy) (addLinks ip n) Q s := by
  rw [addLinks, wp_bind, h.wp_stat hip, h.wp_iupdate hip]
  exact hQ _

/-- A link that has to succeed: the caller panics otherwise. -/
theorem wp_dirlink_new {α : Type} {bad k : FsProg α} {Q : α → State → Prop} (h : Counted L s)
    (hdp : 0 < tableRefs s.tables dp + L.count dp)
    (hroom : roomy → lookup (s.node dp) name ≠ none → inodesInUse s.tables + L.length < NINODE)
    (hbad : ∀ t, wp handle (Fine roomy) bad Q t)
    (hk : ∀ t, Counted L t → t.tables = s.tables → wp handle (Fine roomy) k Q t) :
    wp handle (Fine roomy) (do if ¬(← dirlink dp name ip) then bad else k) Q s := by
  rw [wp_bind]
  refine h.wp_dirlink hdp hroom fun b t ht htab => ?_
  split
  · exact hbad t
  · exact hk t ht htab

/-- The references after `create`: one more, to the inode that is made or found. -/
def afterCreate (L : List Inum) : Option Inum → List Inum
  | none => L
  | some ip => ip :: L

/-- `create`.  For a file, the last lookup finds nothing, since the first one did not. -/
theorem wp_create {Q : Option Inum → State → Prop} {type : FileType} {major minor : ℤ}
    (h : Counted L s) (hp : s.tables.proc p = some me)
    (hroom : roomy → type = .file ∧ inodesInUse s.tables + L.length + 1 < NINODE)
    (hQ : ∀ r t, Counted (afterCreate L r) t → t.tables = s.tables → Q r t) :
    wp handle (Fine roomy) (create p path type major minor) Q s := by
  rw [create, wp_bind]
  refine h.wp_nameiparent hp (fun hr => (hroom hr).2) (fun t ht htab => hQ none t ht htab)
    fun dp name t ht htab => ?_
  have hheld : ∀ {v : State} {i : Inum} {M : List Inum}, i ∈ M →
    0 < tableRefs v.tables i + M.count i := fun hi => count_pos _ hi
  dsimp only
  rw [wp_bind]
  refine ht.wp_ilock (hheld (by simp)) fun u hu htu => ?_
  have hroom' : ∀ {v : State}, v.tables = s.tables → roomy →
      inodesInUse v.tables + (dp :: L).length < NINODE := fun hv hr => by
    have := (hroom hr).2
    rw [hv, List.length_cons]
    omega
  have hutab := htu.tables.trans htab
  rw [wp_bind]
  refine hu.wp_dirlookup (hheld (by simp)) (fun hr _ => hroom' hutab hr) (fun hdir hmiss => ?_)
    fun ip off v _ hv huv => ?_
  · dsimp only
    rw [wp_bind]
    refine hu.wp_ialloc (hroom' hutab) fun i v hfree hv hvtab hvnode => ?_
    have hne : dp ≠ i := by
      rintro rfl
      rw [hfree] at hdir
      cases hdir
    rw [wp_bind]
    refine hv.wp_ilock (hheld (by simp)) fun w hw hvw => ?_
    rw [wp_bind, hw.wp_iupdate (hheld (by simp))]
    -- what is left once the inode has its own entries
    have hfinal : ∀ x, Counted (i :: dp :: L) x → x.tables = s.tables →
        (roomy → lookup (x.node dp) name = none) →
        wp handle (Fine roomy) (do
          if ¬(← dirlink dp name i) then Fs.panic .createDirlink
          else
            iunlockput dp
            return some i) Q x := by
      intro x hx hxtab hxmiss
      refine hx.wp_dirlink_new (hheld (by simp)) (fun hr hhit => absurd (hxmiss hr) hhit)
        (fun _ => .of_ne (by decide)) fun y hy hytab => ?_
      rw [wp_bind]
      exact hy.swap.wp_iunlockput fun z hz hztab =>
        hQ (some i) z hz (hztab.trans (hytab.trans hxtab))
    have hwtab := hvw.tables.trans (hvtab.trans hutab)
    split
    · rename_i hdirtype
      have hno : ¬ roomy := fun hr => by
        have := (hroom hr).1
        rw [hdirtype] at this
        cases this
      rw [wp_bind]
      refine (hw.setNode i _).wp_addLinks (hheld (by simp)) fun m => ?_
      have hempty : ∀ {v : State} {d : Inum} {n : Name}, roomy → lookup (v.node d) n ≠ none →
          inodesInUse v.tables + (i :: dp :: L).length < NINODE := fun hr => absurd hr hno
      refine ((hw.setNode i _).setNode dp m).wp_dirlink_new (hheld (by simp)) hempty
        (fun _ => .of_ne (by decide)) fun x hx hxtab => ?_
      refine hx.wp_dirlink_new (hheld (by simp)) hempty (fun _ => .of_ne (by decide))
        fun y hy hytab => ?_
      exact hfinal y hy (hytab.trans (hxtab.trans hwtab)) fun hr => absurd hr hno
    · refine hfinal _ (hw.setNode i _) hwtab fun _ => ?_
      have hsame : w.node dp = u.node dp := by rw [hvw.node, hvnode dp hne]
      rw [setNode_of_ne _ hne, hsame]
      exact hmiss
  · dsimp only
    rw [wp_bind]
    refine hv.swap.wp_iunlockput fun w hw hwtab => ?_
    have hwall := hwtab.trans (huv.tables.trans hutab)
    rw [wp_bind]
    refine hw.wp_ilock (hheld (by simp)) fun x hx hwx => ?_
    rw [wp_bind, hx.wp_stat (hheld (by simp))]
    split
    · exact hQ (some ip) x hx (hwx.tables.trans hwall)
    · rw [wp_bind]
      exact hx.wp_iunlockput fun y hy hytab =>
        hQ none y hy (hytab.trans (hwx.tables.trans hwall))

/-! ## Calls -/

/-- A file and a descriptor for a locked inode; the file takes over the reference. -/
theorem wp_openInode {Q : Bool → State → Prop} {omode : ℕ} (h : Counted (ip :: L) s)
    (hp : s.tables.proc p = some me) (hQ : ∀ b t, Counted L t → Q b t) :
    wp handle (Fine roomy) (openInode p ip omode) Q s := by
  rw [openInode, wp_bind]
  refine h.wp_filealloc ?_ fun f t ht hproc htype href => ?_
  · dsimp only
    rw [wp_bind]
    exact h.wp_iunlockput fun t ht _ => hQ false t ht
  · dsimp only
    rw [wp_bind]
    refine ht.wp_fdalloc (by rw [hproc, hp]) ?_ fun fd u hu hfile => ?_
    · dsimp only
      rw [wp_bind]
      refine ht.wp_fileclose fun u hu _ => ?_
      rw [wp_bind]
      exact hu.wp_iunlockput fun v hv _ => hQ false v hv
    · dsimp only
      rw [wp_bind]
      refine hu.wp_iunlock (count_pos _ List.mem_cons_self) fun v hv huv => ?_
      rw [wp_bind, wp_tables, wp_bind, wp_setTables, wp_pure]
      have hvtype : (v.tables.file f).type = .none := by rw [huv.tables, hfile, htype]
      have hvref : (v.tables.file f).ref ≠ 0 := by simp [huv.tables, hfile, href]
      refine hQ true _ (hv.setFile (fun i => ?_) fun h0 => absurd h0 hvref)
      simp only [fileRefs, hvtype, List.count_cons, reduceCtorEq, false_and, if_false, true_and,
        beq_iff_eq, Nat.zero_add]
      exact Nat.add_comm _ _

section

variable (h : Counted L s) (hp : s.tables.proc p = some me)
include h hp

theorem wp_sysOpen {Q : Bool → State → Prop} {omode : ℕ}
    (hroom : roomy → inodesInUse s.tables + L.length + 1 < NINODE) (hQ : ∀ b t, Counted L t →
      Q b t) :
    wp handle (Fine roomy) (sysOpen p path omode) Q s := by
  rw [sysOpen]
  split
  · rw [wp_bind]
    refine h.wp_create hp (fun hr => ⟨rfl, hroom hr⟩) fun r t ht htab => ?_
    cases r with
    | none => exact hQ false t ht
    | some ip => exact Counted.wp_openInode ht (by rw [htab, hp]) hQ
  · rw [wp_bind]
    refine h.wp_namei hp hroom (fun t ht _ => hQ false t ht) fun ip t ht htab => ?_
    dsimp only
    rw [wp_bind]
    refine ht.wp_ilock (count_pos _ List.mem_cons_self) fun u hu hsu => ?_
    rw [wp_bind, hu.wp_stat (count_pos _ List.mem_cons_self)]
    split
    · rw [wp_bind]
      exact hu.wp_iunlockput fun v hv _ => hQ false v hv
    · exact hu.wp_openInode (by rw [hsu.tables, htab, hp]) hQ

theorem wp_makeNode {Q : Bool → State → Prop} {type : FileType} {major minor : ℤ} (hno : ¬ roomy)
    (hQ : ∀ b t, Counted L t → Q b t) :
    wp handle (Fine roomy) (makeNode p path type major minor) Q s := by
  rw [makeNode, wp_bind]
  refine h.wp_create hp (fun hr => absurd hr hno) fun r t ht _ => ?_
  cases r with
  | none => exact hQ false t ht
  | some ip =>
    dsimp only
    rw [wp_bind]
    exact Counted.wp_iunlockput ht fun u hu _ => hQ true u hu

theorem wp_sysClose {Q : Bool → State → Prop} {fd : ℕ} (hQ : ∀ b t, Counted L t → Q b t) :
    wp handle (Fine roomy) (sysClose p fd) Q s := by
  rw [sysClose, wp_bind]
  refine wp_argfd fun r => ?_
  cases r with
  | none => exact hQ false s h
  | some r =>
    simp only [wp_bind, wp_myproc, hp, Option.getD_some, wp_setProc]
    exact (h.setProc_same hp).wp_fileclose fun t ht _ => hQ true t ht

theorem wp_sysDup {Q : Bool → State → Prop} {fd : ℕ} (hQ : ∀ b t, Counted L t → Q b t) :
    wp handle (Fine roomy) (sysDup p fd) Q s := by
  rw [sysDup, wp_bind]
  refine wp_argfd fun r => ?_
  cases r with
  | none => exact hQ false s h
  | some r =>
    dsimp only
    rw [wp_bind]
    refine h.wp_fdalloc hp (hQ false s h) fun fd t ht _ => ?_
    dsimp only
    rw [wp_bind]
    exact ht.wp_filedup fun u hu _ => hQ true u hu

end

theorem wp_sysRead {Q : Bool → State → Prop} {fd n : ℕ} (h : Counted L s)
    (hQ : ∀ b t, Counted L t → Q b t) : wp handle (Fine roomy) (sysRead p fd n) Q s := by
  rw [sysRead, wp_bind]
  refine wp_argfd fun r => ?_
  cases r with
  | none => exact hQ false s h
  | some r =>
    dsimp only
    rw [wp_bind]
    exact h.wp_fileread fun r t ht => hQ r.isSome t ht

theorem wp_sysWrite {Q : Bool → State → Prop} {fd : ℕ} {data : List UInt8} (h : Counted L s)
    (hQ : ∀ b t, Counted L t → Q b t) : wp handle (Fine roomy) (sysWrite p fd data) Q s := by
  rw [sysWrite, wp_bind]
  refine wp_argfd fun r => ?_
  cases r with
  | none => exact hQ false s h
  | some r => exact h.wp_filewrite hQ

theorem wp_sysChdir {Q : Bool → State → Prop} (h : Counted L s)
    (hp : s.tables.proc p = some me)
    (hroom : roomy → inodesInUse s.tables + L.length + 1 < NINODE)
    (hQ : ∀ b t, Counted L t → Q b t) : wp handle (Fine roomy) (sysChdir p path) Q s := by
  rw [sysChdir, wp_bind]
  refine h.wp_namei hp hroom (fun t ht _ => hQ false t ht) fun ip t ht htab => ?_
  dsimp only
  rw [wp_bind]
  refine ht.wp_ilock (count_pos _ List.mem_cons_self) fun u hu hsu => ?_
  rw [wp_bind, hu.wp_stat (count_pos _ List.mem_cons_self)]
  split
  · rw [wp_bind]
    exact hu.wp_iunlockput fun v hv _ => hQ false v hv
  · rw [wp_bind]
    refine hu.wp_iunlock (count_pos _ List.mem_cons_self) fun v hv huv => ?_
    have hvp : v.tables.proc p = some me := by rw [huv.tables, hsu.tables, htab, hp]
    rw [wp_bind, wp_myproc, hvp, Option.getD_some, wp_bind]
    -- the table takes over the reference to the new directory, and gives up that to the old one
    have hmove : Counted (me.cwd :: L) { v with tables := { v.tables with
        proc := update v.tables.proc p (some { me with cwd := ip }) } } := by
      refine hv.setProc fun i => ?_
      simp only [hvp, cwdRefs, Option.map_some, Option.some.injEq, List.count_cons, beq_iff_eq]
      omega
    refine wp_iput_tables hmove fun w hw hwtab => ?_
    rw [wp_bind, wp_setProc, wp_pure]
    refine hQ true _ ?_
    rw [hwtab]
    exact hw

theorem wp_linkBad {Q : Bool → State → Prop} (h : Counted (ip :: L) s)
    (hQ : ∀ b t, Counted L t → Q b t) : wp handle (Fine roomy) (linkBad ip) Q s := by
  rw [linkBad, wp_bind]
  refine h.wp_ilock (count_pos _ List.mem_cons_self) fun t ht _ => ?_
  rw [wp_bind]
  refine ht.wp_addLinks (count_pos _ List.mem_cons_self) fun m => ?_
  rw [wp_bind]
  exact (ht.setNode ip m).wp_iunlockput fun u hu _ => hQ false u hu

theorem wp_sysLink {Q : Bool → State → Prop} {old new : List Char} (h : Counted L s)
    (hp : s.tables.proc p = some me) (hno : ¬ roomy) (hQ : ∀ b t, Counted L t → Q b t) :
    wp handle (Fine roomy) (sysLink p old new) Q s := by
  rw [sysLink, wp_bind]
  refine h.wp_namei hp (fun hr => absurd hr hno) (fun t ht _ => hQ false t ht)
    fun ip t ht htab => ?_
  dsimp only
  rw [wp_bind]
  refine ht.wp_ilock (count_pos _ List.mem_cons_self) fun u hu hsu => ?_
  rw [wp_bind, hu.wp_stat (count_pos _ List.mem_cons_self)]
  split
  · rw [wp_bind]
    exact hu.wp_iunlockput fun v hv _ => hQ false v hv
  · rw [wp_bind]
    refine hu.wp_addLinks (count_pos _ List.mem_cons_self) fun m => ?_
    rw [wp_bind]
    refine (hu.setNode ip m).wp_iunlock (count_pos _ List.mem_cons_self) fun v hv huv => ?_
    have hvp : v.tables.proc p = some me := by
      rw [huv.tables]
      show u.tables.proc p = some me
      rw [hsu.tables, htab, hp]
    rw [wp_bind]
    refine hv.wp_nameiparent hvp (fun hr => absurd hr hno)
      (fun w hw _ => hw.wp_linkBad hQ) fun dp name w hw _ => ?_
    dsimp only
    rw [wp_bind]
    refine hw.wp_ilock (count_pos _ List.mem_cons_self) fun x hx _ => ?_
    rw [wp_bind]
    refine hx.wp_dirlink (count_pos _ List.mem_cons_self) (fun hr => absurd hr hno)
      fun b y hy _ => ?_
    split
    · rw [wp_bind]
      refine hy.wp_iunlockput fun z hz _ => ?_
      rw [wp_bind]
      exact hz.wp_iput fun z' hz' _ => hQ true z' hz'
    · rw [wp_bind]
      exact hy.wp_iunlockput fun z hz _ => hz.wp_linkBad hQ

theorem wp_unlinkEntry {Q : Bool → State → Prop} {off : ℕ} (h : Counted (ip :: dp :: L) s)
    (hQ : ∀ b t, Counted L t → Q b t) : wp handle (Fine roomy) (unlinkEntry dp ip off) Q s := by
  have hip : ∀ {t : State}, 0 < tableRefs t.tables ip + (ip :: dp :: L).count ip :=
    count_pos _ (by simp)
  have hdp : ∀ {t : State}, 0 < tableRefs t.tables dp + (ip :: dp :: L).count dp :=
    count_pos _ (by simp)
  have hend : ∀ t, Counted (ip :: dp :: L) t → wp handle (Fine roomy) (do
      iunlockput dp
      addLinks ip (-1)
      iunlockput ip
      return true) Q t := by
    intro t ht
    rw [wp_bind]
    refine ht.swap.wp_iunlockput fun u hu _ => ?_
    rw [wp_bind]
    refine hu.wp_addLinks (count_pos _ List.mem_cons_self) fun m => ?_
    rw [wp_bind]
    exact (hu.setNode ip m).wp_iunlockput fun v hv _ => hQ true v hv
  rw [unlinkEntry, wp_bind, h.wp_stat hip, wp_bind]
  refine h.wp_writeDirent hdp fun b n => ?_
  split
  · rw [wp_panic]
    exact .of_ne (by decide)
  split
  · rw [wp_bind]
    exact (h.setNode dp n).wp_addLinks hdp fun m => hend _ ((h.setNode dp n).setNode dp m)
  · exact hend _ (h.setNode dp n)

section

variable (h : Counted L s) (hp : s.tables.proc p = some me)
include h hp

theorem wp_sysUnlink {Q : Bool → State → Prop} (hno : ¬ roomy) (hQ : ∀ b t, Counted L t → Q b t) :
    wp handle (Fine roomy) (sysUnlink p path) Q s := by
  rw [sysUnlink, wp_bind]
  refine h.wp_nameiparent hp (fun hr => absurd hr hno) (fun t ht _ => hQ false t ht)
    fun dp name t ht _ => ?_
  dsimp only
  rw [wp_bind]
  refine ht.wp_ilock (count_pos _ List.mem_cons_self) fun u hu _ => ?_
  split
  · rw [wp_bind]
    exact hu.wp_iunlockput fun v hv _ => hQ false v hv
  rw [wp_bind]
  refine hu.wp_dirlookup (count_pos _ List.mem_cons_self) (fun hr => absurd hr hno)
    (fun _ _ => ?_) fun ip off v _ hv _ => ?_
  · dsimp only
    rw [wp_bind]
    exact hu.wp_iunlockput fun v hv _ => hQ false v hv
  · dsimp only
    rw [wp_bind]
    refine hv.wp_ilock (count_pos _ List.mem_cons_self) fun w hw _ => ?_
    rw [wp_bind, hw.wp_stat (count_pos _ List.mem_cons_self)]
    split
    · rw [wp_panic]
      exact .of_ne (by decide)
    split
    · rw [wp_bind]
      refine hw.wp_isdirempty (count_pos _ List.mem_cons_self) fun b => ?_
      split
      · exact hw.wp_unlinkEntry hQ
      · rw [wp_bind]
        refine hw.wp_iunlockput fun x hx _ => ?_
        rw [wp_bind]
        exact hx.wp_iunlockput fun y hy _ => hQ false y hy
    · exact hw.wp_unlinkEntry hQ

theorem wp_forkFiles {Q : Bool → State → Prop} {np : Pid} (hnp : s.tables.proc np = none)
    (hQ : ∀ b t, Counted L t → Q b t) : wp handle (Fine roomy) (forkFiles p np) Q s := by
  rw [forkFiles, wp_bind, wp_myproc, hp, Option.getD_some, wp_bind]
  refine (wp_forM (I := fun t => Counted L t ∧ t.tables.proc = s.tables.proc)
    (fun fd _ t ht => ?_) ⟨h, rfl⟩).mono fun _ t ht => ?_
  · cases me.ofile fd with
    | none => exact ht
    | some f => exact ht.1.wp_filedup fun u hu hproc => ⟨hu, hproc.trans ht.2⟩
  · obtain ⟨ht, hproc⟩ := ht
    have htp : t.tables.proc p = some me := by rw [hproc, hp]
    rw [wp_bind]
    refine ht.wp_idup (Nat.add_pos_left (Tree.tableRefs_cwd_pos htp) _) fun u hu hsu => ?_
    rw [wp_bind, wp_setProc, wp_pure]
    refine hQ true _ (hu.setProc fun i => ?_)
    simp only [hsu.tables, hproc, hnp, cwdRefs, Option.map_some, Option.map_none,
      Option.some.injEq, reduceCtorEq, if_false, List.count_cons, beq_iff_eq]
    omega

theorem wp_exitFiles {Q : Bool → State → Prop} (hQ : ∀ b t, Counted L t → Q b t) :
    wp handle (Fine roomy) (exitFiles p) Q s := by
  rw [exitFiles, wp_bind, wp_myproc, hp, Option.getD_some, wp_bind]
  refine (wp_forM (I := fun t => Counted L t ∧ t.tables.proc = s.tables.proc)
    (fun fd _ t ht => ?_) ⟨h, rfl⟩).mono fun _ t ht => ?_
  · cases me.ofile fd with
    | none => exact ht
    | some f => exact ht.1.wp_fileclose fun u hu hproc => ⟨hu, hproc.trans ht.2⟩
  · obtain ⟨ht, hproc⟩ := ht
    have htp : t.tables.proc p = some me := by rw [hproc, hp]
    rw [wp_bind]
    have hmove : Counted (me.cwd :: L) { t with tables := { t.tables with
        proc := update t.tables.proc p none } } := by
      refine ht.setProc fun i => ?_
      simp only [htp, cwdRefs, Option.map_some, Option.map_none, Option.some.injEq, reduceCtorEq,
        if_false, List.count_cons, beq_iff_eq]
      omega
    refine wp_iput_tables hmove fun u hu hutab => ?_
    rw [wp_bind, wp_setProc, wp_pure]
    refine hQ true _ ?_
    rw [hutab]
    exact hu

theorem wp_sysExec {Q : Bool → State → Prop} {reads : List (ℕ × ℕ)} {ok : Bool} (hno : ¬ roomy)
    (hQ : ∀ b t, Counted L t → Q b t) :
    wp handle (Fine roomy) (sysExec p path reads ok) Q s := by
  rw [sysExec, wp_bind]
  refine h.wp_namei hp (fun hr => absurd hr hno) (fun t ht _ => hQ false t ht)
    fun ip t ht _ => ?_
  dsimp only
  rw [wp_bind]
  refine ht.wp_ilock (count_pos _ List.mem_cons_self) fun u hu _ => ?_
  rw [wp_bind]
  refine (wp_forM (I := fun v => Counted (ip :: L) v) (fun r _ v hv => ?_) hu).mono
    fun _ v hv => ?_
  · rw [wp_bind, hv.wp_readi (count_pos _ List.mem_cons_self)]
    exact hv
  · rw [wp_bind]
    exact hv.wp_iunlockput fun w hw _ => hQ ok w hw

end

end Counted

/-- The calls of the four kinds that take and give up files and working directories. -/
def Action.isBasic (a : Action) : Bool :=
  match a.call with
  | .file (.openFile _ _) | .file (.chdir _) | .file (.fork _) | .file (.close _) => true
  | _ => false

/-- There are two inodes less in use than the table has entries, when a path is looked up. -/
def Roomy (s : State) (a : Action) : Prop :=
  match a.call with
  | .file (.openFile _ _) | .file (.chdir _) => inodesInUse s.tables + 2 ≤ NINODE
  | _ => True

/-- **A call leaves no reference behind** but those of the tables. -/
theorem Counted.wp_prog {a : Action} (roomy : Prop) (h : Counted [] s)
    (hen : a.Enabled s.tables) (hroom : roomy → a.isBasic = true ∧ Roomy s a) :
    wp handle (Fine roomy) (a.call.prog a.pid) (fun _ t => Counted [] t) s := by
  obtain ⟨p, c⟩ := a
  have hproc : ∃ me, s.tables.proc p = some me := by
    refine Option.ne_none_iff_exists'.mp ?_
    cases c with
    | file c => exact hen.1
    | exec _ _ _ => exact hen
  obtain ⟨me, hp⟩ := hproc
  have hQ : ∀ (_ : Bool) t, Counted [] t → Counted [] t := fun _ _ ht => ht
  have hno : Action.isBasic ⟨p, c⟩ = false → ¬ roomy := by
    intro hb hr
    rw [(hroom hr).1] at hb
    cases hb
  cases c with
  | exec path reads ok => exact h.wp_sysExec hp (hno rfl) hQ
  | file c =>
    cases c with
    | openFile path omode =>
      refine h.wp_sysOpen hp (fun hr => ?_) hQ
      exact (hroom hr).2
    | chdir path =>
      refine h.wp_sysChdir hp (fun hr => ?_) hQ
      exact (hroom hr).2
    | close fd => exact h.wp_sysClose hp hQ
    | read fd n => exact h.wp_sysRead hQ
    | write fd data => exact h.wp_sysWrite hQ
    | mkdir path => exact h.wp_makeNode hp (hno rfl) hQ
    | mknod path major minor => exact h.wp_makeNode hp (hno rfl) hQ
    | link old new => exact h.wp_sysLink hp (hno rfl) hQ
    | unlink path => exact h.wp_sysUnlink hp (hno rfl) hQ
    | dup fd => exact h.wp_sysDup hp hQ
    | fork np => exact h.wp_forkFiles hp hen.2 hQ
    | exit => exact h.wp_exitFiles hp hQ

end Xv6.Fs.Entries
