import Xv6.Fs.Tree

/-!
# The table of in-core inodes

`icache` of `fs.c`, with the `NINODE` entries it has, under the programs of the file-system
calls.  `iget` looks for an entry of the inode and takes the first free one otherwise.

A pointer to an entry is named by the i-number it was made for, and `ptr` says which entry that
is: `iget` sets it.  When the entry is not in use for that inode any more, the pointer is stale,
and an operation on it is an error of its own; so the checks for `ref < 1` in `ilock` and
`iunlock` are made here.  Everything else is as in the model of directories.

`exec` reads the file it is given, as far as what it finds there tells it to.

## Main definitions

* `Entry`, `State` — the entries, and the rest of the system.
* `iget`, `idup`, `ilock`, `iunlock`, `iput` — the functions of that name.
* `step` — a call of a process, run to its end.
-/

namespace Xv6.Fs.Entries

open Tree (Node)

/-- `struct inode`, without the copy of the dinode. -/
structure Entry where
  inum : Inum
  ref : ℕ
  valid : Bool
  locked : Bool
  deriving DecidableEq

/-- The state.  `inodes` is `icache.inode`. -/
structure State where
  node : Inum → Node
  inodes : List Entry
  ptr : Inum → ℕ
  tables : Tables

/-- Why a call does not come to its end. -/
inductive Stop
  | panic (why : Fault)
  /-- A pointer is used whose entry is not in use for its inode. -/
  | stale
  deriving DecidableEq

def State.setNode (s : State) (ip : Inum) (n : Node) : State :=
  { s with node := Function.update s.node ip n }

/-- The entry that a pointer points to, if it is in use for its inode. -/
def State.entry (s : State) (ip : Inum) : Except Stop Entry :=
  match s.inodes[s.ptr ip]? with
  | none => .error .stale
  | some e => if e.inum = ip ∧ 0 < e.ref then .ok e else .error .stale

def State.setEntry (s : State) (ip : Inum) (e : Entry) : State :=
  { s with inodes := s.inodes.set (s.ptr ip) e }

/-! ## Operations -/

/-- The entry `k` is the one of the inode from now on. -/
def State.point (s : State) (inum : Inum) (k : ℕ) (e : Entry) : State :=
  { s with inodes := s.inodes.set k e, ptr := Function.update s.ptr inum k }

def iget (s : State) (inum : Inum) : Except Stop (Unit × State) :=
  match s.inodes.findIdx? fun e => 0 < e.ref && e.inum == inum with
  | some k =>
    match s.inodes[k]? with
    | none => .error .stale
    | some e => .ok ((), s.point inum k { e with ref := e.ref + 1 })
  | none =>
    match s.inodes.findIdx? fun e => e.ref == 0 with
    | none => .error (.panic .igetNoInodes)
    | some k =>
      match s.inodes[k]? with
      | none => .error .stale
      | some e => .ok ((), s.point inum k { e with inum := inum, ref := 1, valid := false })

def idup (s : State) (ip : Inum) : Except Stop (Unit × State) := do
  let e ← s.entry ip
  return ((), s.setEntry ip { e with ref := e.ref + 1 })

def ialloc (s : State) (type : FileType) : Except Stop (Inum × State) :=
  match (List.range' 1 (Tree.NINODES - 1)).find? fun i => (s.node i).type = none with
  | none => .error (.panic .iallocNoInodes)
  | some i => do
      let r ← iget (s.setNode i { Node.free with type := some type }) i
      return (i, r.2)

def ilock (s : State) (ip : Inum) : Except Stop (Unit × State) := do
  let e ← s.entry ip
  if e.locked then .error (.panic .waitsForItself)
  else if e.valid then return ((), s.setEntry ip { e with locked := true })
  else if (s.node ip).type = none then .error (.panic .ilockNoType)
  else return ((), s.setEntry ip { e with locked := true, valid := true })

def iunlock (s : State) (ip : Inum) : Except Stop (Unit × State) := do
  let e ← s.entry ip
  if e.locked = false then .error (.panic .iunlock)
  else return ((), s.setEntry ip { e with locked := false })

def iput (s : State) (ip : Inum) : Except Stop (Unit × State) := do
  let e ← s.entry ip
  if e.ref = 1 ∧ e.valid ∧ (s.node ip).nlink = 0 then
    return ((), (s.setNode ip { s.node ip with type := none, size := 0, ents := [] }).setEntry ip
      { e with ref := 0, valid := false })
  else return ((), s.setEntry ip { e with ref := e.ref - 1 })

/-- An operation on the inode of a pointer. -/
def State.at {α : Type} (s : State) (ip : Inum) (f : Node → α × Node) :
    Except Stop (α × State) := do
  let _ ← s.entry ip
  return ((f (s.node ip)).1, s.setNode ip (f (s.node ip)).2)

/-- What the operations do. -/
def handle : Prog.Handler FsOp FsOp.Ret State Stop
  | .ialloc type, s => ialloc s type
  | .iget inum, s => iget s inum
  | .idup ip, s => idup s ip
  | .ilock ip, s => ilock s ip
  | .iunlock ip, s => iunlock s ip
  | .iput ip, s => iput s ip
  | .stat ip, s => s.at ip fun n => (⟨n.type, n.major, n.minor, n.nlink, n.bytes⟩, n)
  | .iupdate ip major minor nlink, s =>
    s.at ip fun n => ((), { n with major := major, minor := minor, nlink := nlink })
  | .readDirent ip off, s => s.at ip fun n => (Tree.readDirent n off, n)
  | .writeDirent ip off de, s =>
    s.at ip fun n =>
      match Tree.writeDirent n off de with
      | none => (false, n)
      | some n' => (true, n')
  | .readi ip off len, s => s.at ip fun n => (Tree.readi n off len, n)
  | .writei ip off data, s =>
    s.at ip fun n =>
      match Tree.writei n off data.length with
      | none => (none, n)
      | some n' => (some data.length, n')
  | .tables, s => .ok (s.tables, s)
  | .setTables t, s => .ok ((), { s with tables := t })
  | .panic why, _ => .error (.panic why)

/-! ## Calls -/

/-- What `exec` does with files: it reads the pieces `reads` of the program, where the contents
say they are, and returns `ok` in the end. -/
def sysExec (p : Pid) (path : List Char) (reads : List (ℕ × ℕ)) (ok : Bool) : FsProg Bool := do
  match ← namei p path with
  | none => return false
  | some ip =>
    Fs.ilock ip
    reads.forM fun r => do
      let _ ← Fs.readi ip r.1 r.2
    Fs.iunlockput ip
    return ok

/-- The calls a process makes. -/
inductive Call
  | file (c : Fs.Call)
  | exec (path : List Char) (reads : List (ℕ × ℕ)) (ok : Bool)

def Call.prog (p : Pid) : Call → FsProg Bool
  | .file c => c.prog p
  | .exec path reads ok => sysExec p path reads ok

/-- A process, and the call it makes. -/
structure Action where
  pid : Pid
  call : Call

/-- Processes make calls, a child starts in a slot of its own, and init stays. -/
def Action.Enabled (t : Tables) (a : Action) : Prop :=
  match a.call with
  | .file c => Tree.Action.Enabled t ⟨a.pid, c⟩
  | .exec _ _ _ => t.proc a.pid ≠ none

instance (t : Tables) (a : Action) : Decidable (a.Enabled t) := by
  unfold Action.Enabled
  cases a.call <;> infer_instance

/-- A call, up to its end. -/
def call (s : State) (a : Action) : Except Stop (Bool × State) :=
  Prog.run handle (a.call.prog a.pid) s

/-- A completed call. -/
def step (s : State) (a : Action) : Option State :=
  if a.Enabled s.tables then
    match call s a with
    | .ok (_, t) => some t
    | .error _ => none
  else none

/-- The first process is in the root directory, on any disk. -/
def boot (node : Inum → Node) : State where
  node := node
  inodes := ⟨ROOTINO, 1, false, false⟩ :: List.replicate (NINODE - 1) ⟨0, 0, false, false⟩
  ptr _ := 0
  tables :=
    { file := fun _ => ⟨.none, 0, false, false, 0, 0⟩
      proc := fun p => if p = 0 then some ⟨ROOTINO, fun _ => none⟩ else none }

end Xv6.Fs.Entries
