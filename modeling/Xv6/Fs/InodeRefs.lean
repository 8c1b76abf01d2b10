import Xv6.Fs.Entries
import Xv6.Fs.TreeRefs
import Mathlib.Data.List.Dedup
import Mathlib.Data.List.Perm.Subperm

/-!
# References to in-core inodes

An entry of the table is in use for one inode, no other entry is in use for it, and its `ref` is
the number of open files and working directories that refer to it, and of the references that
the running call holds.  So the entries in use are as many as the inodes referred to, and `iget`
finds one unless there are `NINODE` of these.

## Main definitions

* `Counted L s` — the entries while a call holds the references `L`.
* `tableInums`, `inodesInUse` — the inodes that files and processes refer to.

## Main results

* `Counted.full` — when there is no free entry.
* `Counted.wp_iget`, `Counted.wp_iput` — a reference is taken, and dropped.
-/

namespace Xv6.Fs.Entries

open Function Prog
open Tree (Node tableRefs fileRefs cwdRefs)

/-! ## The inodes in use -/

/-- The inodes that open files and processes refer to, each as often as it is. -/
def tableInums (t : Tables) : List Inum :=
  (List.finRange NFILE).filterMap (fun f =>
    if (t.file f).type = .inode then some (t.file f).ip else none) ++
  (List.finRange NPROC).filterMap fun p => (t.proc p).map ProcFiles.cwd

/-- How many inodes open files and processes refer to. -/
def inodesInUse (t : Tables) : ℕ := (tableInums t).dedup.length

theorem mem_tableInums {t : Tables} {i : Inum} : 0 < tableRefs t i → i ∈ tableInums t := by
  intro hpos
  rw [tableRefs] at hpos
  simp only [tableInums, List.mem_append, List.mem_filterMap, List.mem_finRange, true_and]
  by_cases hfile : 0 < ∑ f, fileRefs i (t.file f)
  · obtain ⟨f, -, hf⟩ := Finset.exists_ne_zero_of_sum_ne_zero (Nat.ne_of_gt hfile)
    refine .inl ⟨f, ?_⟩
    simp only [fileRefs, ne_eq, ite_eq_right_iff, Classical.not_imp] at hf
    rw [if_pos hf.1.1, hf.1.2]
  · obtain ⟨p, -, hp⟩ := Finset.exists_ne_zero_of_sum_ne_zero
      (s := Finset.univ) (f := fun p => cwdRefs i (t.proc p)) (by omega)
    refine .inr ⟨p, ?_⟩
    simp only [cwdRefs, ne_eq, ite_eq_right_iff, Classical.not_imp] at hp
    exact hp.1

/-! ## The invariant -/

/-- The entries while a call holds the references `L`. -/
structure Counted (L : List Inum) (s : State) : Prop where
  length : s.inodes.length = NINODE
  unique : ∀ {j k : ℕ} {d e : Entry}, s.inodes[j]? = some d → s.inodes[k]? = some e →
    0 < d.ref → 0 < e.ref → d.inum = e.inum → j = k
  count : ∀ {k : ℕ} {e : Entry}, s.inodes[k]? = some e → 0 < e.ref →
    e.ref = tableRefs s.tables e.inum + L.count e.inum
  found : ∀ {i : Inum}, 0 < tableRefs s.tables i + L.count i →
    ∃ e, s.inodes[s.ptr i]? = some e ∧ e.inum = i ∧ 0 < e.ref
  unused : ∀ f, (s.tables.file f).ref = 0 → (s.tables.file f).type = .none

/-- How a call may stop short: not with a stale pointer, and with `roomy` not for want of an
entry. -/
def Fine (roomy : Prop) (e : Stop) : Prop := e ≠ .stale ∧ (roomy → e ≠ .panic .igetNoInodes)

variable {roomy : Prop} {L : List Inum} {s t : State} {ip dp i : Inum} {e e' : Entry} {k : ℕ}

theorem Fine.of_ne {why : Fault} (h : why ≠ .igetNoInodes) : Fine roomy (.panic why) := by
  refine ⟨by simp, fun _ heq => h ?_⟩
  simpa using heq

theorem getElem?_set_cases {l : List Entry} {j : ℕ} {d : Entry} (h : (l.set k e)[j]? = some d) :
    (j = k ∧ d = e) ∨ (j ≠ k ∧ l[j]? = some d) := by
  by_cases hjk : j = k
  · subst hjk
    rw [List.getElem?_set] at h
    simp only [if_true] at h
    split at h
    · exact .inl ⟨rfl, (Option.some.inj h).symm⟩
    · cases h
  · rw [List.getElem?_set_ne (Ne.symm hjk)] at h
    exact .inr ⟨hjk, h⟩

theorem getElem?_set_same {l : List Entry} (h : l[k]? = some e) : (l.set k e')[k]? = some e' := by
  rw [List.getElem?_set, if_pos rfl, if_pos (List.getElem?_eq_some_iff.mp h).1]

namespace Counted

theorem perm {L' : List Inum} (h : Counted L s) (hp : L.Perm L') : Counted L' s where
  length := h.length
  unique := h.unique
  count hk he := by rw [h.count hk he, hp.count_eq]
  found hi := h.found (by rw [hp.count_eq]; exact hi)
  unused := h.unused

theorem swap {j : Inum} (h : Counted (i :: j :: L) s) : Counted (j :: i :: L) s :=
  h.perm (List.Perm.swap ..)

theorem setNode (h : Counted L s) (i : Inum) (n : Node) : Counted L (s.setNode i n) :=
  ⟨h.length, h.unique, h.count, h.found, h.unused⟩

/-- **An entry changes.**  It was free, or is that of the inode before and after, and there is
no other of that inode. -/
theorem point {L' : List Inum} (h : Counted L s) (hk : s.inodes[k]? = some e)
    (hold : e.ref = 0 ∨ e.inum = i)
    (honly : ∀ j d, s.inodes[j]? = some d → 0 < d.ref → d.inum = i → j = k) (hi : e'.inum = i)
    (hcount : e'.ref = tableRefs s.tables i + L'.count i)
    (hL : ∀ j, j ≠ i → L'.count j = L.count j) : Counted L' (s.point i k e') := by
  have hother : ∀ {j d}, (s.inodes.set k e')[j]? = some d → 0 < d.ref →
      (j = k ∧ d = e') ∨ (s.inodes[j]? = some d ∧ d.inum ≠ i ∧ j ≠ k) := by
    intro j d hd hpos
    rcases getElem?_set_cases hd with hd | ⟨hne, hd⟩
    · exact .inl hd
    · exact .inr ⟨hd, fun heq => hne (honly j d hd hpos heq), hne⟩
  constructor
  · simp only [State.point, List.length_set]
    exact h.length
  · intro j m d d' hd hd' hpos hpos' heq
    rcases hother hd hpos with ⟨rfl, rfl⟩ | ⟨hold₁, hne₁, -⟩
    · rcases hother hd' hpos' with ⟨rfl, rfl⟩ | ⟨-, hne₂, -⟩
      · rfl
      · exact absurd (heq.symm.trans hi) hne₂
    · rcases hother hd' hpos' with ⟨rfl, rfl⟩ | ⟨hold₂, -, -⟩
      · exact absurd (heq.trans hi) hne₁
      · exact h.unique hold₁ hold₂ hpos hpos' heq
  · intro j d hd hpos
    rcases hother hd hpos with ⟨rfl, rfl⟩ | ⟨hd, hne, -⟩
    · rw [hi]
      exact hcount
    · rw [h.count hd hpos, hL _ hne]
      rfl
  · intro m hm
    by_cases hmi : m = i
    · subst hmi
      simp only [State.point, update_self]
      refine ⟨e', getElem?_set_same hk, hi, ?_⟩
      rw [hcount]
      exact hm
    · simp only [State.point, update_of_ne hmi]
      rw [hL m hmi] at hm
      obtain ⟨d, hd, hdm, hpos⟩ := h.found hm
      refine ⟨d, ?_, hdm, hpos⟩
      rw [List.getElem?_set_ne ?_]
      · exact hd
      · rintro rfl
        obtain rfl : e = d := Option.some.inj (hk.symm.trans hd)
        rcases hold with h0 | h0
        · omega
        · exact hmi (hdm.symm.trans h0)
  · exact h.unused

/-- A pointer that is counted points to the entry of its inode. -/
theorem entry_eq (h : Counted L s) (hip : 0 < tableRefs s.tables ip + L.count ip) :
    ∃ e, s.entry ip = .ok e ∧ s.inodes[s.ptr ip]? = some e ∧ e.inum = ip ∧
      e.ref = tableRefs s.tables ip + L.count ip := by
  obtain ⟨e, he, hinum, hpos⟩ := h.found hip
  refine ⟨e, ?_, he, hinum, ?_⟩
  · simp [State.entry, he, hinum, hpos]
  · rw [h.count he hpos, hinum]

/-- The entry of a pointer changes. -/
theorem setEntry {L' : List Inum} (h : Counted L s) (hk : s.inodes[s.ptr ip]? = some e)
    (hpos : 0 < e.ref) (hinum : e.inum = ip) (hi : e'.inum = ip)
    (hcount : e'.ref = tableRefs s.tables ip + L'.count ip)
    (hL : ∀ j, j ≠ ip → L'.count j = L.count j) : Counted L' (s.setEntry ip e') := by
  have hpoint : s.setEntry ip e' = s.point ip (s.ptr ip) e' := by
    rw [State.setEntry, State.point, update_eq_self]
  rw [hpoint]
  exact h.point hk (.inr hinum)
    (fun j d hd hdpos hdi => h.unique hd hk hdpos hpos (hdi.trans hinum.symm)) hi hcount hL

theorem count_pos (t : Tables) (hip : ip ∈ L) : 0 < tableRefs t ip + L.count ip :=
  Nat.add_pos_right _ (List.count_pos_iff.mpr hip)

/-- **No entry is free only when `NINODE` inodes are referred to.** -/
theorem full (h : Counted L s) (hfull : s.inodes.findIdx? (fun e => e.ref == 0) = none) :
    NINODE ≤ inodesInUse s.tables + L.length := by
  have hpos : ∀ e ∈ s.inodes, 0 < e.ref := by
    intro e he
    have := List.findIdx?_eq_none_iff.mp hfull e he
    simp only [beq_eq_false_iff_ne] at this
    omega
  have hnodup : (s.inodes.map Entry.inum).Nodup := by
    rw [List.nodup_iff_getElem?_ne_getElem?]
    intro j k hjk hk heq
    rw [List.length_map] at hk
    have hj : s.inodes[j]? = some s.inodes[j] := List.getElem?_eq_getElem (by omega)
    have hk' : s.inodes[k]? = some s.inodes[k] := List.getElem?_eq_getElem hk
    rw [List.getElem?_map, List.getElem?_map, hj, hk'] at heq
    have := h.unique hj hk' (hpos _ (List.getElem_mem _)) (hpos _ (List.getElem_mem _))
      (by simpa using heq)
    omega
  have hsub : s.inodes.map Entry.inum ⊆ (tableInums s.tables).dedup ++ L := by
    intro i hi
    obtain ⟨e, he, rfl⟩ := List.mem_map.mp hi
    obtain ⟨k, hk⟩ := List.getElem?_of_mem he
    have hcount := h.count hk (hpos e he)
    have hpos := hpos e he
    rw [List.mem_append, List.mem_dedup]
    by_cases htab : 0 < tableRefs s.tables e.inum
    · exact .inl (mem_tableInums htab)
    · exact .inr (List.count_pos_iff.mp (by omega))
  have hle := (hnodup.subperm hsub).length_le
  rw [List.length_map, h.length, List.length_append] at hle
  exact hle

end Counted

/-! ## Single operations -/

/-- The nodes and the tables are as before. -/
structure Same (s t : State) : Prop where
  node : t.node = s.node
  tables : t.tables = s.tables

theorem setNode_of_ne {j : Inum} (n : Node) (hj : j ≠ i) : (s.setNode i n).node j = s.node j :=
  update_of_ne hj ..

theorem setNode_eq_self (s : State) (i : Inum) : s.setNode i (s.node i) = s := by
  rw [State.setNode, update_eq_self]

variable {Q : Unit → State → Prop}

@[simp] theorem wp_tables {R : Stop → Prop} {Q : Tables → State → Prop} :
    wp handle R Fs.tables Q s ↔ Q s.tables s := Iff.rfl

@[simp] theorem wp_setTables {R : Stop → Prop} {T : Tables} :
    wp handle R (Fs.setTables T) Q s ↔ Q () { s with tables := T } := Iff.rfl

@[simp] theorem wp_panic {R : Stop → Prop} {α : Type} {why : Fault} {Q : α → State → Prop} :
    wp handle R (Fs.panic why) Q s ↔ R (.panic why) := Iff.rfl

namespace Counted

section

variable (h : Counted L s) (hip : 0 < tableRefs s.tables ip + L.count ip)
include h hip

/-- An operation on the inode of a pointer. -/
theorem run_at {α : Type} (f : Node → α × Node) :
    s.at ip f = .ok ((f (s.node ip)).1, s.setNode ip (f (s.node ip)).2) := by
  obtain ⟨e, he, -⟩ := h.entry_eq hip
  rw [State.at, he]
  rfl

/-- An operation that reads the inode of a pointer. -/
theorem run_read {α : Type} (f : Node → α) :
    (s.at ip fun n => (f n, n)) = .ok (f (s.node ip), s) := by
  rw [h.run_at hip, setNode_eq_self]

theorem wp_stat {Q : Stat → State → Prop} :
    wp handle (Fine roomy) (Fs.stat ip) Q s ↔
      Q ⟨(s.node ip).type, (s.node ip).major, (s.node ip).minor, (s.node ip).nlink,
        (s.node ip).bytes⟩ s := by
  have hrun : run handle (Fs.stat ip) s = .ok (⟨(s.node ip).type, (s.node ip).major,
      (s.node ip).minor, (s.node ip).nlink, (s.node ip).bytes⟩, s) :=
    (run_op _).trans (h.run_read hip fun n => (⟨n.type, n.major, n.minor, n.nlink, n.bytes⟩ : Stat))
  rw [wp, hrun]

theorem wp_readDirent {Q : Option Dirent → State → Prop} {off : ℕ} :
    wp handle (Fine roomy) (Fs.readDirent ip off) Q s ↔
      Q (Tree.readDirent (s.node ip) off) s := by
  have hrun : run handle (Fs.readDirent ip off) s = .ok (Tree.readDirent (s.node ip) off, s) :=
    (run_op _).trans (h.run_read hip fun n => Tree.readDirent n off)
  rw [wp, hrun]

theorem wp_readi {Q : Option ℕ → State → Prop} {off n : ℕ} :
    wp handle (Fine roomy) (Fs.readi ip off n) Q s ↔ Q (Tree.readi (s.node ip) off n) s := by
  have hrun : run handle (Fs.readi ip off n) s = .ok (Tree.readi (s.node ip) off n, s) :=
    (run_op _).trans (h.run_read hip fun m => Tree.readi m off n)
  rw [wp, hrun]

theorem wp_iupdate {major minor nlink : ℤ} :
    wp handle (Fine roomy) (Fs.iupdate ip major minor nlink) Q s ↔
      Q () (s.setNode ip { s.node ip with major := major, minor := minor, nlink := nlink }) := by
  have hrun : run handle (Fs.iupdate ip major minor nlink) s = .ok ((), s.setNode ip
      { s.node ip with major := major, minor := minor, nlink := nlink }) :=
    (run_op _).trans (h.run_at hip fun n =>
      ((), { n with major := major, minor := minor, nlink := nlink }))
  rw [wp, hrun]

theorem wp_writeDirent {Q : Bool → State → Prop} {off : ℕ} {de : Dirent}
    (hQ : ∀ b n, Q b (s.setNode ip n)) :
    wp handle (Fine roomy) (Fs.writeDirent ip off de) Q s := by
  have hrun : run handle (Fs.writeDirent ip off de) s = _ := run_op _
  rw [wp, hrun, handle, h.run_at hip]
  exact hQ _ _

theorem wp_writei {Q : Option ℕ → State → Prop} {off : ℕ} {data : List UInt8}
    (hQ : ∀ r n, Q r (s.setNode ip n)) :
    wp handle (Fine roomy) (Fs.writei ip off data) Q s := by
  have hrun : run handle (Fs.writei ip off data) s = _ := run_op _
  rw [wp, hrun, handle, h.run_at hip]
  exact hQ _ _

end

/-- **A reference is taken**, in the entry that the inode has or in a free one. -/
theorem iget (h : Counted L s) (i : Inum) :
    (∃ t, iget s i = .ok ((), t) ∧ Counted (i :: L) t ∧ Same s t) ∨
      iget s i = .error (.panic .igetNoInodes) ∧ NINODE ≤ inodesInUse s.tables + L.length := by
  have hcons : ∀ j, j ≠ i → (i :: L).count j = L.count j :=
    fun j hj => List.count_cons_of_ne (Ne.symm hj)
  unfold Entries.iget
  cases hfind : s.inodes.findIdx? fun e => 0 < e.ref && e.inum == i with
  | some k =>
    obtain ⟨hk, he, -⟩ := List.findIdx?_eq_some_iff_getElem.mp hfind
    simp only [Bool.and_eq_true, decide_eq_true_eq, beq_iff_eq] at he
    have hget : s.inodes[k]? = some s.inodes[k] := List.getElem?_eq_getElem hk
    simp only [hget]
    refine .inl ⟨_, rfl, ?_, rfl, rfl⟩
    refine h.point hget (.inr he.2) (fun j d hd hpos hdi => ?_) he.2 ?_ hcons
    · exact h.unique hd hget hpos he.1 (hdi.trans he.2.symm)
    · have hcount := h.count hget he.1
      rw [he.2] at hcount
      simp only [List.count_cons_self]
      omega
  | none =>
    have hno : ∀ (j : ℕ) (d : Entry), s.inodes[j]? = some d → 0 < d.ref → d.inum ≠ i := by
      intro j d hd hpos heq
      have := List.findIdx?_eq_none_iff.mp hfind d (List.mem_of_getElem? hd)
      simp [hpos, heq] at this
    have hzero : tableRefs s.tables i + L.count i = 0 := by
      by_contra hne
      obtain ⟨d, hd, hdi, hpos⟩ := h.found (Nat.pos_of_ne_zero hne)
      exact hno _ d hd hpos hdi
    cases hfree : s.inodes.findIdx? fun e => e.ref == 0 with
    | none => exact .inr ⟨rfl, h.full hfree⟩
    | some k =>
      obtain ⟨hk, he, -⟩ := List.findIdx?_eq_some_iff_getElem.mp hfree
      have hget : s.inodes[k]? = some s.inodes[k] := List.getElem?_eq_getElem hk
      simp only [hget]
      refine .inl ⟨_, rfl, ?_, rfl, rfl⟩
      refine h.point hget (.inl (by simpa using he))
        (fun j d hd hpos hdi => absurd hdi (hno j d hd hpos)) rfl ?_ hcons
      simp only [List.count_cons_self]
      omega

theorem wp_iget (h : Counted L s) (hroom : roomy → inodesInUse s.tables + L.length < NINODE)
    (hQ : ∀ t, Counted (i :: L) t → Same s t → Q () t) :
    wp handle (Fine roomy) (Fs.iget i) Q s := by
  have hrun : run handle (Fs.iget i) s = Entries.iget s i := run_op _
  rw [wp, hrun]
  rcases h.iget i with ⟨t, ht, hcount, hsame⟩ | ⟨herr, hfull⟩
  · rw [ht]
    exact hQ t hcount hsame
  · rw [herr]
    refine ⟨by simp, fun hr => ?_⟩
    have := hroom hr
    omega

section

variable (h : Counted L s) (hip : 0 < tableRefs s.tables ip + L.count ip)
include h hip

theorem wp_idup (hQ : ∀ t, Counted (ip :: L) t → Same s t → Q () t) :
    wp handle (Fine roomy) (Fs.idup ip) Q s := by
  obtain ⟨e, he, hget, hinum, hcount⟩ := h.entry_eq hip
  have hrun : run handle (Fs.idup ip) s = idup s ip := run_op _
  rw [wp, hrun, idup, he]
  refine hQ _ ?_ ⟨rfl, rfl⟩
  refine h.setEntry hget (by omega) hinum hinum ?_
    fun j hj => List.count_cons_of_ne (Ne.symm hj)
  simp only [List.count_cons_self]
  omega

/-- An entry changes, but not its reference count. -/
theorem setEntry_same (hget : s.inodes[s.ptr ip]? = some e) (hinum : e.inum = ip)
    (hcount : e.ref = tableRefs s.tables ip + L.count ip) (hi : e'.inum = e.inum)
    (href : e'.ref = e.ref) : Counted L (s.setEntry ip e') :=
  h.setEntry hget (by omega) hinum (hi.trans hinum) (href.trans hcount) fun _ _ => rfl

theorem wp_ilock (hQ : ∀ t, Counted L t → Same s t → Q () t) :
    wp handle (Fine roomy) (Fs.ilock ip) Q s := by
  obtain ⟨e, he, hget, hinum, hcount⟩ := h.entry_eq hip
  have hkeep : ∀ locked valid,
      Counted L (s.setEntry ip { e with locked := locked, valid := valid }) := fun _ _ =>
    h.setEntry_same hip hget hinum hcount rfl rfl
  have hrun : run handle (Fs.ilock ip) s = ilock s ip := run_op _
  rw [wp, hrun]
  simp only [ilock, he, Bind.bind, Except.bind]
  by_cases hlock : e.locked = true
  · simp only [hlock, if_true]
    exact .of_ne (by decide)
  by_cases hv : e.valid = true
  · simp only [hlock, hv, if_true]
    exact hQ _ (hkeep _ _) ⟨rfl, rfl⟩
  by_cases hty : (s.node ip).type = none
  · simp only [hlock, hv, hty, if_true]
    exact .of_ne (by decide)
  · simp only [hlock, hv, hty, if_false]
    exact hQ _ (hkeep _ _) ⟨rfl, rfl⟩

theorem wp_iunlock (hQ : ∀ t, Counted L t → Same s t → Q () t) :
    wp handle (Fine roomy) (Fs.iunlock ip) Q s := by
  obtain ⟨e, he, hget, hinum, hcount⟩ := h.entry_eq hip
  have hrun : run handle (Fs.iunlock ip) s = iunlock s ip := run_op _
  rw [wp, hrun]
  simp only [iunlock, he, Bind.bind, Except.bind]
  by_cases hlock : e.locked = false
  · simp only [hlock, if_true]
    exact .of_ne (by decide)
  · simp only [hlock]
    exact hQ _ (h.setEntry_same hip hget hinum hcount rfl rfl) ⟨rfl, rfl⟩

end

/-- **A reference is dropped.**  The tables may be about to change. -/
theorem wp_iput_tables {T : Tables} (h : Counted (ip :: L) { s with tables := T })
    (hQ : ∀ t, Counted L { t with tables := T } → t.tables = s.tables → Q () t) :
    wp handle (Fine roomy) (Fs.iput ip) Q s := by
  obtain ⟨e, he, hget, hinum, hcount⟩ := h.entry_eq (count_pos _ List.mem_cons_self)
  have he : s.entry ip = .ok e := he
  rw [List.count_cons_self] at hcount
  have hcons : ∀ j, j ≠ ip → L.count j = (ip :: L).count j :=
    fun j hj => (List.count_cons_of_ne (Ne.symm hj)).symm
  have hrun : run handle (Fs.iput ip) s = iput s ip := run_op _
  rw [wp, hrun]
  simp only [iput, he, Bind.bind, Except.bind]
  by_cases hlast : e.ref = 1 ∧ e.valid = true ∧ (s.node ip).nlink = 0
  · simp only [hlast, and_self, if_true]
    refine hQ _ ?_ rfl
    refine (h.setNode ip _).setEntry hget (by omega) hinum hinum ?_ hcons
    show 0 = tableRefs T ip + L.count ip
    dsimp only at hcount
    omega
  · simp only [hlast, if_false]
    refine hQ _ ?_ rfl
    refine h.setEntry hget (by omega) hinum hinum ?_ hcons
    show e.ref - 1 = tableRefs T ip + L.count ip
    dsimp only at hcount
    omega

theorem wp_iput (h : Counted (ip :: L) s)
    (hQ : ∀ t, Counted L t → t.tables = s.tables → Q () t) :
    wp handle (Fine roomy) (Fs.iput ip) Q s := by
  refine wp_iput_tables (T := s.tables) h fun t ht htab => hQ t ?_ htab
  rw [← htab] at ht
  exact ht

theorem wp_iunlockput (h : Counted (ip :: L) s)
    (hQ : ∀ t, Counted L t → t.tables = s.tables → Q () t) :
    wp handle (Fine roomy) (iunlockput ip) Q s := by
  rw [iunlockput, wp_bind]
  refine h.wp_iunlock (count_pos _ List.mem_cons_self) fun u hu hsu => ?_
  exact hu.wp_iput fun t ht htab => hQ t ht (htab.trans hsu.tables)

/-- New tables take over references of the call, or leave references to it. -/
theorem setTables {L' : List Inum} {T : Tables} (h : Counted L s)
    (hrefs : ∀ i, tableRefs T i + L'.count i = tableRefs s.tables i + L.count i)
    (hunused : ∀ f, (T.file f).ref = 0 → (T.file f).type = .none) :
    Counted L' { s with tables := T } where
  length := h.length
  unique := h.unique
  count hk he := by
    rw [h.count hk he]
    exact (hrefs _).symm
  found hi := h.found (by rw [← hrefs]; exact hi)
  unused := hunused

/-- A file of the table changes. -/
theorem setFile {L' : List Inum} {f : Fin NFILE} {x : File} (h : Counted L s)
    (hrefs : ∀ i, fileRefs i x + L'.count i = fileRefs i (s.tables.file f) + L.count i)
    (hunused : x.ref = 0 → x.type = .none) :
    Counted L'
      { s with tables := { s.tables with file := update s.tables.file f x } } := by
  refine h.setTables (fun i => ?_) fun g hg => ?_
  · have h₁ := Tree.tableRefs_setFile s.tables f x i
    have h₂ := hrefs i
    dsimp only at h₁ ⊢
    omega
  · dsimp only at hg ⊢
    by_cases hgf : g = f
    · subst hgf
      rw [update_self] at hg ⊢
      exact hunused hg
    · rw [update_of_ne hgf] at hg ⊢
      exact h.unused g hg

/-- A file changes, but not what it refers to. -/
theorem setFile_same {f : Fin NFILE} {x : File} (h : Counted L s)
    (htype : x.type = (s.tables.file f).type) (hip : x.ip = (s.tables.file f).ip)
    (hunused : x.ref = 0 → x.type = .none) :
    Counted L { s with tables := { s.tables with file := update s.tables.file f x } } :=
  h.setFile (fun i => by rw [fileRefs, fileRefs, htype, hip]) hunused

/-- A slot of the process table changes. -/
theorem setProc {L' : List Inum} {p : Pid} {me : Option ProcFiles} (h : Counted L s)
    (hrefs : ∀ i, cwdRefs i me + L'.count i = cwdRefs i (s.tables.proc p) + L.count i) :
    Counted L' { s with
      tables := { s.tables with proc := update s.tables.proc p me } } := by
  refine h.setTables (fun i => ?_) h.unused
  have h₁ := Tree.tableRefs_setProc s.tables p me i
  have h₂ := hrefs i
  dsimp only at h₁ ⊢
  omega

end Counted

end Xv6.Fs.Entries
