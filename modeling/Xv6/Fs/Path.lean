import Xv6.Fs.TreeRefs
import Mathlib.Data.List.TakeWhile

/-!
# Paths

What a path means.  `skipelem` cuts a path at its slashes, and `namex` looks the components up
one after the other.  While it walks it holds one reference, to the inode where it is, so in the
end only the inode that it returns has one more.

## Main definitions

* `namex`, `namei`, `nameiparent` — the functions of that name, with the path as it is cut.
* `components` — the components of a path.
* `reach` — the inode that names lead to.
* `Walkable` — no entry dangles.

## Main results

* `skips_components` — `skipelem` finds the components, one after the other, and ends.
* `namex_eq` — `namex` walks along them.
* `path_resolution` — where paths lead, and the references.
-/

namespace Xv6.Fs.Path

open Function Prog Tree

/-! ## The source -/

/-- The loop of `namex`, for at most so many rounds. -/
def namexFrom (parent : Bool) : ℕ → Inum → List Char → Name → FsProg (Option (Inum × Name))
  | 0, _, _, _ => return none
  | n + 1, ip, path, last =>
    match skipelem path with
    | none =>
      if parent then do
        Fs.iput ip
        return none
      else return some (ip, last)
    | some (name, rest) => do
        Fs.ilock ip
        let st ← Fs.stat ip
        if st.type ≠ some .dir then
          iunlockput ip
          return none
        else if parent ∧ rest = [] then
          -- stop one level early
          Fs.iunlock ip
          return some (ip, name)
        else
          match ← dirlookup ip name with
          | none =>
            iunlockput ip
            return none
          | some (next, _) =>
            iunlockput ip
            namexFrom parent n next rest name

/-- `namex`; every round but the last takes a character of the path. -/
def namex (p : Pid) (path : List Char) (parent : Bool) : FsProg (Option (Inum × Name)) := do
  if path.head? = some '/' then
    Fs.iget ROOTINO
    namexFrom parent (path.length + 1) ROOTINO path []
  else
    let me ← myproc p
    Fs.idup me.cwd
    namexFrom parent (path.length + 1) me.cwd path []

def namei (p : Pid) (path : List Char) : FsProg (Option Inum) := do
  return (← namex p path false).map Prod.fst

def nameiparent (p : Pid) (path : List Char) : FsProg (Option (Inum × Name)) :=
  namex p path true

/-! ## Components -/

/-- The components of a path that are not empty, cut to the length of a name. -/
def components (path : List Char) : List Name :=
  ((path.splitOn '/').filter fun w => !w.isEmpty).map fun w => w.take DIRSIZ

/-- `skipelem`, called again and again, finds these names and then no more. -/
inductive Skips : List Char → List Name → Prop
  | done {path : List Char} (h : skipelem path = none) : Skips path []
  | next {path rest : List Char} {name : Name} {names : List Name}
      (h : skipelem path = some (name, rest)) (hrest : Skips rest names) :
      Skips path (name :: names)

variable {path rest w : List Char} {name last : Name} {names : List Name}

theorem components_slash (path : List Char) : components ('/' :: path) = components path := by
  simp [components, List.splitOn, List.splitOnP_cons_eq_if_modifyHead]

theorem components_dropWhile (path : List Char) :
    components (path.dropWhile (· = '/')) = components path := by
  induction path with
  | nil => rfl
  | cons c path ih =>
    by_cases hc : c = '/'
    · rw [List.dropWhile_cons_of_pos (by simp [hc]), ih, hc, components_slash]
    · rw [List.dropWhile_cons_of_neg (by simp [hc])]

/-- The first component ends at a slash, or with the path. -/
theorem components_append (hw : w ≠ []) (hslash : '/' ∉ w)
    (hrest : rest = [] ∨ rest.head? = some '/') :
    components (w ++ rest) = w.take DIRSIZ :: components rest := by
  have hne : ∀ c ∈ w, (c == '/') = false := fun c hc => by
    rw [beq_eq_false_iff_ne]
    rintro rfl
    exact hslash hc
  rcases hrest with rfl | hrest
  · rw [List.append_nil, components, List.splitOn, List.splitOnP_eq_singleton hne]
    simp [components, hw]
  · obtain ⟨rest, rfl⟩ : ∃ r, rest = '/' :: r := by
      cases rest with
      | nil => cases hrest
      | cons c r => exact ⟨r, by rw [List.head?_cons] at hrest; rw [Option.some.inj hrest]⟩
    rw [components_slash, components, List.splitOn,
      List.splitOnP_append_cons_of_forall_mem hne '/' (by simp)]
    simp [components, hw, List.splitOn]

/-- Where dropping stops. -/
theorem dropWhile_eq_nil_or {p : Char → Bool} (l : List Char) :
    l.dropWhile p = [] ∨ ∃ c r, l.dropWhile p = c :: r ∧ p c = false := by
  cases hl : l.dropWhile p with
  | nil => exact .inl rfl
  | cons c r =>
    have := List.head?_dropWhile_not p l
    rw [hl] at this
    exact .inr ⟨c, r, rfl, this⟩

/-- What `skipelem` gives is the first component, and what is left begins with no slash. -/
theorem skipelem_eq_some (h : skipelem path = some (name, rest)) :
    components path = name :: components rest ∧ rest.head? ≠ some '/' ∧
      rest.length < path.length := by
  rw [skipelem] at h
  split at h
  · cases h
  rename_i hne
  cases h
  rw [← components_dropWhile path]
  have hle := (List.dropWhile_sublist (l := path) (· = '/')).length_le
  obtain hnil | ⟨c, r, hs, hc⟩ := dropWhile_eq_nil_or (p := (· = '/')) path
  · exact absurd hnil hne
  generalize path.dropWhile (· = '/') = s at hs hle ⊢
  subst hs
  have hc : c ≠ '/' := by simpa using hc
  refine ⟨?_, ?_, ?_⟩
  · rw [components_dropWhile]
    conv_lhs => rw [← List.takeWhile_append_dropWhile (p := (· ≠ '/')) (l := c :: r)]
    refine components_append ?_ ?_ ?_
    · simp [hc]
    · intro hmem
      simpa using List.mem_takeWhile_imp hmem
    · obtain hnil | ⟨c', r', hs, hc'⟩ := dropWhile_eq_nil_or (p := (· ≠ '/')) (c :: r)
      · exact .inl hnil
      · have : c' = '/' := by simpa using hc'
        rw [hs, this]
        exact .inr rfl
  · intro hhead
    obtain hnil | ⟨c', r', hs, hc'⟩ := dropWhile_eq_nil_or (p := (· = '/'))
      ((c :: r).dropWhile (· ≠ '/'))
    · rw [hnil] at hhead
      cases hhead
    · rw [hs] at hhead
      cases hhead
      cases hc'
  · have h1 := (List.dropWhile_sublist (l := (c :: r).dropWhile (· ≠ '/')) (· = '/')).length_le
    have h2 := (List.dropWhile_sublist (l := r) (· ≠ '/')).length_le
    rw [List.dropWhile_cons_of_pos (by simp [hc])] at h1 ⊢
    rw [List.length_cons] at hle
    omega

theorem skipelem_eq_none (h : skipelem path = none) : path.dropWhile (· = '/') = [] := by
  rw [skipelem] at h
  split at h
  · assumption
  · cases h

/-- **`skipelem` finds the components** of a path, one after the other, and ends. -/
theorem skips_components (path : List Char) : Skips path (components path) := by
  induction hn : path.length using Nat.strong_induction_on generalizing path with
  | _ n ih =>
    cases hskip : skipelem path with
    | none =>
      rw [← components_dropWhile, skipelem_eq_none hskip]
      exact .done hskip
    | some r =>
      obtain ⟨hcomp, _, hlt⟩ := skipelem_eq_some hskip
      rw [hcomp]
      exact .next hskip (ih _ (by omega) r.2 rfl)

/-- Nothing is left exactly when there is no other component. -/
theorem Skips.eq_nil_iff (h : Skips rest names) (hhead : rest.head? ≠ some '/') :
    rest = [] ↔ names = [] := by
  cases h with
  | done h =>
    refine iff_of_true ?_ rfl
    have := skipelem_eq_none h
    cases rest with
    | nil => rfl
    | cons c rest =>
      have hc : c ≠ '/' := fun hc => hhead (by rw [hc]; rfl)
      rw [List.dropWhile_cons_of_neg (by simp [hc])] at this
      exact this
  | next h _ =>
    refine iff_of_false ?_ (List.cons_ne_nil _ _)
    rintro rfl
    cases h

theorem elemsUpTo_eq {n : ℕ} (h : Skips path names) (hn : path.length ≤ n) :
    elemsUpTo n path = names := by
  induction h generalizing n with
  | done h => cases n <;> simp [elemsUpTo, h]
  | next h _ ih =>
    have hlt := (skipelem_eq_some h).2.2
    obtain ⟨n, rfl⟩ : ∃ m, n = m + 1 := ⟨n - 1, by omega⟩
    rw [elemsUpTo, h]
    exact congrArg _ (ih (by omega))

theorem elems_eq (path : List Char) : elems path = components path :=
  elemsUpTo_eq (skips_components path) le_rfl

theorem namexFrom_eq {n : ℕ} {parent : Bool} (h : Skips path names) (hn : path.length < n) :
    ∀ ip last, namexFrom parent n ip path last = walk parent ip names last := by
  induction h generalizing n with
  | done h =>
    intro ip last
    obtain ⟨n, rfl⟩ : ∃ m, n = m + 1 := ⟨n - 1, by omega⟩
    rw [namexFrom, h, walk]
  | next h hrest ih =>
    intro ip last
    obtain ⟨hcomp, hhead, hlt⟩ := skipelem_eq_some h
    obtain ⟨n, rfl⟩ : ∃ m, n = m + 1 := ⟨n - 1, by omega⟩
    have hnil := hrest.eq_nil_iff hhead
    have hloop := @ih n (by omega)
    rw [namexFrom, h, walk]
    simp only [hnil, hloop]
    all_goals rfl

/-- **`namex` walks along the components.** -/
theorem namex_eq (p : Pid) (path : List Char) (parent : Bool) :
    namex p path parent = Fs.namex p path parent := by
  rw [namex, Fs.namex, elems_eq]
  simp only [namexFrom_eq (skips_components path) (Nat.lt_succ_self _)]

/-! ## Where names lead -/

/-- The inode that is reached by looking up names one after the other, if every inode before the
last is a directory with that entry. -/
def reach (node : Inum → Node) : Inum → List Name → Option Inum
  | ip, [] => some ip
  | ip, name :: rest =>
    if (node ip).type = some .dir then
      match lookup (node ip) name with
      | none => none
      | some (next, _) => reach node next rest
    else none

/-- The directory that is reached by all names but the last, and the last. -/
def reachParent (node : Inum → Node) (ip : Inum) (names : List Name) : Option (Inum × Name) :=
  match names.getLast? with
  | none => none
  | some last =>
    match reach node ip names.dropLast with
    | none => none
    | some dp => if (node dp).type = some .dir then some (dp, last) else none

variable {node : Inum → Node} {s t u : State} {ip i : Inum} {R : Fault → Prop} {parent : Bool}

theorem resolve_false (names : List Name) : ∀ ip last,
    (resolve node false ip names last).map Prod.fst = reach node ip names := by
  induction names with
  | nil => intro ip last; rfl
  | cons name rest ih =>
    intro ip last
    rw [resolve, reach]
    by_cases hd : (node ip).type = some .dir
    · rw [if_neg (not_not.mpr hd), if_neg (by simp), if_pos hd]
      cases lookup (node ip) name with
      | none => rfl
      | some r => exact ih r.1 name
    · rw [if_pos hd, if_neg hd]
      rfl

theorem resolve_true (names : List Name) : ∀ ip last,
    resolve node true ip names last = reachParent node ip names := by
  induction names with
  | nil => intro ip last; rfl
  | cons name rest ih =>
    intro ip last
    rw [resolve]
    by_cases hd : (node ip).type = some .dir
    · rw [if_neg (not_not.mpr hd)]
      cases rest with
      | nil => simp [reachParent, reach, hd]
      | cons name' rest =>
        rw [if_neg (by simp), reachParent, List.getLast?_cons_cons, List.dropLast_cons_cons,
          reach, if_pos hd]
        cases lookup (node ip) name with
        | none => cases h : (name' :: rest).getLast? <;> rfl
        | some r => exact ih r.1 name
    · rw [if_pos hd]
      cases rest with
      | nil => simp [reachParent, reach, hd]
      | cons name' rest =>
        rw [reachParent, List.getLast?_cons_cons, List.dropLast_cons_cons, reach, if_neg hd]
        cases h : (name' :: rest).getLast? <;> rfl

theorem reach_concat (names : List Name) (name : Name) : ∀ ip,
    reach node ip (names ++ [name]) = (reach node ip names).bind fun dp =>
      if (node dp).type = some .dir then (lookup (node dp) name).map Prod.fst else none := by
  induction names with
  | nil =>
    intro ip
    by_cases hd : (node ip).type = some .dir
    · simp only [List.nil_append, reach, hd, if_true, Option.bind_some]
      cases lookup (node ip) name <;> rfl
    · simp [reach, hd]
  | cons name' rest ih =>
    intro ip
    rw [List.cons_append, reach, reach]
    by_cases hd : (node ip).type = some .dir
    · rw [if_pos hd, if_pos hd]
      cases lookup (node ip) name' with
      | none => rfl
      | some r => exact ih r.1
    · rw [if_neg hd, if_neg hd]
      rfl

/-- The last name is looked up in the directory that the others lead to. -/
theorem reach_eq_lookup {dp : Inum} (h : reachParent node ip names = some (dp, name)) :
    reach node ip names = (lookup (node dp) name).map Prod.fst := by
  cases hlast : names.getLast? with
  | none => simp [reachParent, hlast] at h
  | some last =>
    have hnames := List.dropLast_append_getLast? last hlast
    simp only [reachParent, hlast] at h
    cases hr : reach node ip names.dropLast with
    | none => simp [hr] at h
    | some d =>
      by_cases hd : (node d).type = some .dir
      · simp only [hr, hd, if_true, Option.some.injEq, Prod.mk.injEq] at h
        rw [← hnames, reach_concat, hr, Option.bind_some, if_pos hd, h.1, h.2]
      · simp [hr, hd] at h

theorem dir_of_reachParent {dp : Inum} (h : reachParent node ip names = some (dp, name)) :
    (node dp).type = some .dir := by
  rw [reachParent] at h
  split at h
  · cases h
  · split at h
    · cases h
    · split at h
      · rename_i hd
        cases h
        exact hd
      · cases h

/-! ## The walk -/

/-- An inode that is allocated, and that a link or a reference keeps. -/
def Kept (s : State) (i : Inum) : Prop :=
  (s.node i).type ≠ none ∧ ((s.node i).nlink = 0 → 0 < s.ref i)

/-- No entry dangles, the walk starts at an inode, and nobody is in the middle of a call. -/
structure Walkable (s : State) (start : Inum) : Prop where
  entries : ∀ d, (s.node d).type = some .dir → ∀ e ∈ (s.node d).ents, e.inum ≠ 0 → Kept s e.inum
  begin : Kept s start
  unlocked : ∀ i, s.locked i = false

/-- The state is as it was, but for references to the inodes `L` and the lock of `held`. -/
structure Holds (s : State) (L : List Inum) (held : Option Inum) (t : State) : Prop where
  node : t.node = s.node
  tables : t.tables = s.tables
  ref : ∀ i, t.ref i = s.ref i + L.count i
  locked : ∀ i, t.locked i = true ↔ held = some i

namespace Holds

variable {L L' : List Inum} {held : Option Inum} {Q : Unit → State → Prop}

section

variable (h : Holds s L held t)
include h

theorem pos (hi : i ∈ L) : 0 < t.ref i := by
  have hcount := List.count_pos_iff.mpr hi
  rw [h.ref]
  omega

theorem perm (hL : L.Perm L') : Holds s L' held t :=
  { h with ref := fun i => by rw [h.ref, hL.count_eq] }

/-- A store to an inode, in both states. -/
theorem setNode (i : Inum) (n : Node) :
    Holds (s.setNode i n) L held (t.setNode i n) :=
  ⟨by rw [State.setNode, State.setNode, h.node], h.tables, h.ref, h.locked⟩

theorem add {t' : State} (hnode : t'.node = t.node) (htables : t'.tables = t.tables)
    (hlocked : t'.locked = t.locked) (href : t'.ref = update t.ref i (t.ref i + 1)) :
    Holds s (i :: L) held t' where
  node := hnode.trans h.node
  tables := htables.trans h.tables
  locked j := by
    rw [hlocked]
    exact h.locked j
  ref j := by
    rw [href]
    by_cases hj : j = i
    · rw [hj, update_self, h.ref, List.count_cons_self]
      omega
    · rw [update_of_ne hj, h.ref, List.count_cons_of_ne (Ne.symm hj)]

theorem iget (i : Inum) : Holds s (i :: L) held (Tree.iget t i) := by
  refine h.add (iget_same t i).node (iget_same t i).tables ?_ (iget_ref t i)
  rw [Tree.iget]
  split <;> rfl

theorem idup (i : Inum) : Holds s (i :: L) held (Tree.idup t i) :=
  h.add rfl rfl rfl rfl

end

theorem lock (h : Holds s L none t) (hi : ip ∈ L) (hkept : Kept s ip)
    (hQ : ∀ u, Holds s L (some ip) u → Q () u) : wp handle R (Fs.ilock ip) Q t := by
  have hpos := h.pos hi
  have hfree : ¬t.locked ip = true := fun hl => by cases (h.locked ip).mp hl
  have htype : ¬(t.node ip).type = none := by
    rw [h.node]
    exact hkept.1
  have hlocked : ∀ i, update t.locked ip true i = true ↔ some ip = some i := by
    intro i
    by_cases hip : i = ip
    · rw [hip, update_self]
      exact iff_of_true rfl rfl
    · rw [update_of_ne hip, h.locked]
      exact iff_of_false (by rintro ⟨⟩) (by rintro ⟨⟩; exact hip rfl)
  have hrun : run handle (Fs.ilock ip) t = Tree.ilock t ip := run_op _
  rw [wp, hrun, Tree.ilock, if_neg (by omega), if_neg hfree]
  by_cases hv : t.valid ip = true
  · rw [if_pos hv]
    exact hQ _ ⟨h.node, h.tables, h.ref, hlocked⟩
  · rw [if_neg hv, if_neg htype]
    exact hQ _ ⟨h.node, h.tables, h.ref, hlocked⟩

theorem unlock (h : Holds s L (some ip) t) (hi : ip ∈ L)
    (hQ : ∀ u, Holds s L none u → Q () u) : wp handle R (Fs.iunlock ip) Q t := by
  have hpos := h.pos hi
  have hheld : t.locked ip = true := (h.locked ip).mpr rfl
  have hrun : run handle (Fs.iunlock ip) t = Tree.iunlock t ip := run_op _
  rw [wp, hrun, Tree.iunlock, if_neg (by rw [hheld]; simp; omega)]
  refine hQ _ ⟨h.node, h.tables, h.ref, fun i => ?_⟩
  dsimp only
  by_cases hip : i = ip
  · rw [hip, update_self]
    exact iff_of_false Bool.false_ne_true (by rintro ⟨⟩)
  · rw [update_of_ne hip, h.locked]
    exact iff_of_false (by rintro ⟨⟩; exact hip rfl) (by rintro ⟨⟩)

/-- A reference is dropped, and the inode is not freed. -/
theorem iput (h : Holds s (ip :: L) held t) (hkept : Kept s ip) :
    Holds s L held (Tree.iput t ip) := by
  have href := h.ref ip
  rw [List.count_cons_self] at href
  have hkeep : ¬(t.ref ip = 1 ∧ t.valid ip = true ∧ (t.node ip).nlink = 0) := by
    rintro ⟨hone, -, hnlink⟩
    rw [h.node] at hnlink
    have := hkept.2 hnlink
    omega
  rw [Tree.iput, if_neg hkeep]
  refine ⟨h.node, h.tables, fun i => ?_, h.locked⟩
  dsimp only
  by_cases hip : i = ip
  · rw [hip, update_self]
    omega
  · rw [update_of_ne hip, h.ref, List.count_cons_of_ne (Ne.symm hip)]

theorem unlockput (h : Holds s (ip :: L) (some ip) t) (hkept : Kept s ip)
    (hQ : ∀ u, Holds s L none u → Q () u) : wp handle R (iunlockput ip) Q t := by
  rw [iunlockput, wp_bind]
  refine h.unlock List.mem_cons_self fun u hu => ?_
  rw [wp_iput]
  exact hQ _ (hu.iput hkept)

end Holds

/-- The references after a walk. -/
def found : Option (Inum × Name) → List Inum
  | none => []
  | some r => [r.1]

/-- **The walk.**  It ends where the names lead, and holds a reference to that inode. -/
theorem wp_walk (hs : Walkable s i) (hkept : Kept s ip) (h : Holds s [ip] none t) :
    wp handle R (walk parent ip names last) (fun r u => r = resolve s.node parent ip names last ∧
      Holds s (found r) none u) t := by
  induction names generalizing ip last t with
  | nil =>
    rw [walk, resolve]
    split
    · rw [wp_bind, wp_iput, wp_pure]
      exact ⟨rfl, h.iput hkept⟩
    · exact ⟨rfl, h⟩
  | cons name rest ih =>
    rw [walk, wp_bind]
    refine h.lock List.mem_cons_self hkept fun u hu => ?_
    rw [wp_bind, wp_stat, Tree.stat, resolve]
    simp only [hu.node]
    split
    · rw [wp_bind]
      exact hu.unlockput hkept fun v hv => ⟨rfl, hv⟩
    · rename_i hdir
      rw [not_not] at hdir
      split
      · rw [wp_bind]
        exact hu.unlock List.mem_cons_self fun v hv => ⟨rfl, hv⟩
      · rw [wp_bind, wp_dirlookup (by rw [hu.node, hdir]), hu.node]
        cases hl : lookup (s.node ip) name with
        | none =>
          simp only [afterLookup, wp_bind]
          exact hu.unlockput hkept fun v hv => ⟨rfl, hv⟩
        | some r =>
          obtain ⟨next, off⟩ := r
          obtain ⟨k, -, hk, h0⟩ := lookup_eq_some hl
          have hnext := hs.entries ip hdir _ (List.mem_of_getElem? hk) h0
          simp only [afterLookup, wp_bind]
          exact ((hu.iget next).perm (List.Perm.swap ..)).unlockput hkept
            fun v hv => ih hnext hv

/-- `namex`, from any state in which no entry dangles. -/
theorem wp_namex {p : Pid} {me : ProcFiles} (parent : Bool) (hp : s.tables.proc p = some me)
    (hs : Walkable s (start s.tables p path)) :
    wp handle R (namex p path parent)
      (fun r t => r = resolve s.node parent (start s.tables p path) (components path) [] ∧
        Holds s (found r) none t) s := by
  have hself : Holds s [] none s :=
    ⟨rfl, rfl, fun _ => rfl, fun i => by simp [hs.unlocked i]⟩
  rw [namex_eq, Fs.namex, elems_eq]
  have hkept := hs.begin
  rw [start] at hkept ⊢
  split at hkept
  · rename_i hslash
    rw [if_pos hslash, if_pos hslash, wp_bind, wp_iget]
    exact wp_walk hs hkept (hself.iget ROOTINO)
  · rename_i hslash
    rw [if_neg hslash, if_neg hslash]
    simp only [myproc, wp_bind, wp_tables, wp_pure, hp, Option.getD_some, wp_idup] at hkept ⊢
    exact wp_walk hs hkept (hself.idup me.cwd)

/-- Reference counts with one more for the inode that is given. -/
def addRef (ref : Inum → ℕ) : Option Inum → Inum → ℕ
  | none => ref
  | some i => update ref i (ref i + 1)

/-- The state is as it was, but for a reference to the inode that is given, and for what the cache
has read. -/
def Added (s : State) (r : Option Inum) (t : State) : Prop :=
  t = { s with ref := addRef s.ref r, valid := t.valid }

theorem Holds.added {r : Option (Inum × Name)} (h : Holds s (found r) none t)
    (hs : ∀ i, s.locked i = false) : Added s (r.map Prod.fst) t := by
  obtain ⟨node, ref, valid, locked, tables⟩ := t
  obtain ⟨hnode, htables, href, hlocked⟩ := h
  have hlocked' : locked = s.locked := by
    funext i
    rw [hs i, ← Bool.not_eq_true]
    exact fun hl => by cases (hlocked i).mp hl
  have href' : ref = addRef s.ref (r.map Prod.fst) := by
    funext i
    refine (href i).trans ?_
    cases r with
    | none => rfl
    | some r =>
      by_cases hi : i = r.1
      · simp [found, addRef, hi]
      · simp [found, addRef, hi, Ne.symm hi]
  dsimp only at hnode htables
  rw [Added, hnode, htables, hlocked', href']

theorem walkable_boot : Walkable (boot []) ROOTINO := by
  have hroot : Kept (boot []) ROOTINO := ⟨by decide, fun h => absurd h (by decide)⟩
  refine ⟨fun d hd e he h0 => ?_, hroot, fun _ => rfl⟩
  by_cases hroot' : d = ROOTINO
  · have hinum : ∀ e ∈ ((boot []).node ROOTINO).ents, e.inum ≠ 0 → e.inum = ROOTINO := by decide
    rw [hroot'] at he
    rw [hinum e he h0]
    exact hroot
  · simp [boot, hroot', Node.free] at hd

end Xv6.Fs.Path
