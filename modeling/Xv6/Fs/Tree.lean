import Xv6.Fs.Files

/-!
# The file system as a tree of directories

The inode layer with a directory as the list of its entries.  How the contents of a file
are spread over blocks is left out, and with it the panic when the disk is full.  A
locked inode's copy in the cache is its dinode, since every store to it is followed by
`iupdate` in the same operation, so there is one `Node` for both; `valid` still says
whether `ilock` has read it since `iget` took a free entry of the cache.

## Main definitions

* `State` — the inodes, the cache, and the tables of open files.
* `handle` — what the operations do.
* `step` — a call of a process, run to its end.
* `boot` — the state after `mkfs` and `userinit`.
-/

namespace Xv6.Fs.Tree

open Function

/-- The inodes that `mkfs` makes room for; 0 is not used. -/
def NINODES : ℕ := 200

/-- The most entries of a directory: `MAXFILE*BSIZE` bytes. -/
def maxEnts : ℕ := (NDIRECT + 512 / 4) * 512 / direntSize

/-- An inode with its contents: the entries of a directory, the size of another file. -/
structure Node where
  type : Option FileType
  major : ℤ
  minor : ℤ
  nlink : ℤ
  size : ℕ
  ents : List Dirent
  deriving DecidableEq

/-- The size in bytes. -/
def Node.bytes (n : Node) : ℕ :=
  if n.type = some .dir then direntSize * n.ents.length else n.size

/-- A free inode. -/
def Node.free : Node := ⟨none, 0, 0, 0, 0, []⟩

/-- The state.  `ref`, `valid` and `locked` are the cache entry of an inode; the
reference count is 0 when it has none. -/
structure State where
  node : Inum → Node
  ref : Inum → ℕ
  valid : Inum → Bool
  locked : Inum → Bool
  tables : Tables

def State.setNode (s : State) (ip : Inum) (n : Node) : State :=
  { s with node := update s.node ip n }

/-! ## Operations -/

def iget (s : State) (inum : Inum) : State :=
  if 0 < s.ref inum then { s with ref := update s.ref inum (s.ref inum + 1) }
  else { s with
    ref := update s.ref inum 1, valid := update s.valid inum false }

def idup (s : State) (ip : Inum) : State :=
  { s with ref := update s.ref ip (s.ref ip + 1) }

/-- The first free inode, marked and looked up. -/
def ialloc (s : State) (type : FileType) : Except Fault (Inum × State) :=
  match (List.range' 1 (NINODES - 1)).find? fun i => (s.node i).type = none with
  | none => .error .iallocNoInodes
  | some i => .ok (i, iget (s.setNode i { Node.free with type := some type }) i)

def ilock (s : State) (ip : Inum) : Except Fault (Unit × State) :=
  if s.ref ip < 1 then .error .ilock
  else if s.locked ip then .error .waitsForItself
  else
    let s₁ : State := { s with locked := update s.locked ip true }
    if s.valid ip then .ok ((), s₁)
    else if (s.node ip).type = none then .error .ilockNoType
    else .ok ((), { s₁ with valid := update s.valid ip true })

def iunlock (s : State) (ip : Inum) : Except Fault (Unit × State) :=
  if s.locked ip = false ∨ s.ref ip < 1 then .error .iunlock
  else .ok ((), { s with locked := update s.locked ip false })

/-- `iput`; an inode without links whose last reference it drops is truncated and freed. -/
def iput (s : State) (ip : Inum) : State :=
  let s₁ : State :=
    if s.ref ip = 1 ∧ s.valid ip ∧ (s.node ip).nlink = 0 then
      { s.setNode ip { s.node ip with type := none, size := 0, ents := [] } with
        valid := update s.valid ip false }
    else s
  { s₁ with ref := update s.ref ip (s.ref ip - 1) }

def stat (s : State) (ip : Inum) : Stat :=
  let n := s.node ip
  ⟨n.type, n.major, n.minor, n.nlink, n.bytes⟩

/-- The entry at an offset, if all of it lies within the directory. -/
def readDirent (n : Node) (off : ℕ) : Option Dirent := n.ents[off / direntSize]?

/-- An entry replaced, or added at the end while there is room. -/
def writeDirent (n : Node) (off : ℕ) (de : Dirent) : Option Node :=
  let i := off / direntSize
  if i < n.ents.length then some { n with ents := n.ents.set i de }
  else if i = n.ents.length ∧ i < maxEnts then some { n with ents := n.ents ++ [de] }
  else none

/-- The count of bytes read; a device gives as many as it is asked for. -/
def readi (n : Node) (off len : ℕ) : Option ℕ :=
  if n.type = some .dev then some len
  else if n.bytes < off then none
  else some (min len (n.bytes - off))

/-- The file after a write, which a device does not notice.  No directory is open for
writing. -/
def writei (n : Node) (off len : ℕ) : Option Node :=
  if n.type = some .dev then some n
  else if n.type = some .dir ∨ n.size < off ∨ maxEnts * direntSize < off + len then none
  else some { n with size := max n.size (off + len) }

/-- What the operations do. -/
def handle : Prog.Handler FsOp FsOp.Ret State Fault
  | .ialloc type, s => ialloc s type
  | .iget inum, s => .ok ((), iget s inum)
  | .idup ip, s => .ok ((), idup s ip)
  | .ilock ip, s => ilock s ip
  | .iunlock ip, s => iunlock s ip
  | .iput ip, s => .ok ((), iput s ip)
  | .stat ip, s => .ok (stat s ip, s)
  | .iupdate ip major minor nlink, s =>
    .ok ((), s.setNode ip { s.node ip with major := major, minor := minor, nlink := nlink })
  | .readDirent ip off, s => .ok (readDirent (s.node ip) off, s)
  | .writeDirent ip off de, s =>
    match writeDirent (s.node ip) off de with
    | none => .ok (false, s)
    | some n => .ok (true, s.setNode ip n)
  | .readi ip off len, s => .ok (readi (s.node ip) off len, s)
  | .writei ip off data, s =>
    match writei (s.node ip) off data.length with
    | none => .ok (none, s)
    | some n => .ok (some data.length, s.setNode ip n)
  | .tables, s => .ok (s.tables, s)
  | .setTables t, s => .ok ((), { s with tables := t })
  | .panic why, _ => .error why

/-! ## Runs -/

/-- A process, and the call it makes. -/
structure Action where
  pid : Pid
  call : Call

/-- Processes make calls, a child starts in a slot of its own, and init stays. -/
def Action.Enabled (t : Tables) (a : Action) : Prop :=
  t.proc a.pid ≠ none ∧
    match a.call with
    | .fork np => t.proc np = none
    | .exit => a.pid ≠ 0
    | _ => True

instance (t : Tables) (a : Action) : Decidable (a.Enabled t) := by
  unfold Action.Enabled
  cases a.call <;> infer_instance

/-- A completed call. -/
def step (s : State) (a : Action) : Option State :=
  if a.Enabled s.tables then
    match Prog.run handle (a.call.prog a.pid) s with
    | .ok (_, t) => some t
    | .error _ => none
  else none

/-! ## The first state -/

/-- An inode that `mkfs` makes. -/
def madeBy (type : FileType) (size : ℕ) (ents : List Dirent) : Node :=
  ⟨some type, 0, 0, 1, size, ents⟩

/-- The root directory of `mkfs`: files of these names in the inodes from 2 on, and empty
entries up to the end of a block. -/
def rootEnts (names : List Name) : List Dirent :=
  let ents : List Dirent :=
    ⟨ROOTINO, dot⟩ :: ⟨ROOTINO, dotdot⟩ :: names.mapIdx fun i name => ⟨i + 2, name⟩
  let perBlock := 512 / direntSize
  ents ++ List.replicate ((ents.length / perBlock + 1) * perBlock - ents.length) ⟨0, []⟩

/-- The file system that `mkfs` makes of files with these names and sizes, and the first
process, in the root directory. -/
def boot (files : List (Name × ℕ)) : State where
  node i :=
    if i = ROOTINO then madeBy .dir 0 (rootEnts (files.map Prod.fst))
    else
      match files[i - 2]? with
      | some (_, size) => if i < 2 then Node.free else madeBy .file size []
      | none => Node.free
  ref i := if i = ROOTINO then 1 else 0
  valid _ := false
  locked _ := false
  tables :=
    { file := fun _ => ⟨.none, 0, false, false, 0, 0⟩
      proc := fun p => if p = 0 then some ⟨ROOTINO, fun _ => none⟩ else none }

end Xv6.Fs.Tree
