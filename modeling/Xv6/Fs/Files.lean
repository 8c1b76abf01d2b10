import Xv6.Fs.Inode
import Xv6.Lib.Prog
import Mathlib.Data.List.FinRange
import Mathlib.Logic.Function.Basic

/-!
# Directories, files and the file-system calls

The code above the inode layer, as programs over its operations: directories and paths of
`fs.c`, the file table of `file.c`, the calls of `sysfile.c`, and what `fork` and `exit`
do to files.  What the operations mean is said elsewhere, once for directories as lists
of entries and once for blocks on disk.

Calls run one at a time, each to its end; a panic, or a process that waits for a lock it
holds itself, is a failure of the run.  A pointer to an entry of the inode cache is the
i-number in it, which is another one in every entry in use.  A store to `major`, `minor`
or `nlink` and the `iupdate` that follows are one operation.  Pipes are left out: they
touch no inode.

## Main definitions

* `FsOp`, `FsOp.Ret` — the operations of the inode layer.
* `Tables` — the open files and, for each process, its working directory and descriptors.
* `dirlookup`, `dirlink`, `namex`, `create` — the functions of that name.
* `Call`, `Call.prog` — the system calls.
-/

namespace Xv6.Fs

open Function

/-! ## Operations -/

/-- The longest name in a directory. -/
def DIRSIZ : ℕ := 14

/-- A name of a directory entry, without the padding. -/
abbrev Name := List Char

/-- `struct dirent`; an entry with `inum` 0 is free. -/
structure Dirent where
  inum : Inum
  name : Name
  deriving DecidableEq, Repr

/-- `sizeof(struct dirent)`. -/
def direntSize : ℕ := 16

/-- What makes a call stop short: the panics of the code under the calls, and a process
that waits for itself. -/
inductive Fault
  | ilock | ilockNoType | iunlock | iallocNoInodes | igetNoInodes
  | dirlookupNotDir | dirlinkRead | dirlink | createDots | createDirlink
  | unlinkNlink | unlinkWritei | isdiremptyReadi
  | filedup | fileclose | shortFilewrite | initExiting
  | ballocOutOfBlocks | freeingFreeBlock | bmapOutOfRange
  | waitsForItself
  deriving DecidableEq, Repr

/-- What a caller reads of a locked inode. -/
structure Stat where
  type : Option FileType
  major : ℤ
  minor : ℤ
  nlink : ℤ
  size : ℕ

/-- What `struct file` is for; pipes are left out. -/
inductive FdType
  | none | inode
  deriving DecidableEq, Repr

/-- `struct file`. -/
structure File where
  type : FdType
  ref : ℕ
  readable : Bool
  writable : Bool
  ip : Inum
  off : ℕ

/-- The files of a process. -/
structure ProcFiles where
  cwd : Inum
  ofile : Fin NOFILE → Option (Fin NFILE)

/-- A slot of the process table. -/
abbrev Pid := Fin NPROC

/-- The open files of the system and of its processes. -/
structure Tables where
  file : Fin NFILE → File
  proc : Pid → Option ProcFiles

/-- The operations of the inode layer, and access to the tables. -/
inductive FsOp
  /-- `ialloc(dev, type)`, with the `iget` it ends with. -/
  | ialloc (type : FileType)
  | iget (inum : Inum)
  | idup (ip : Inum)
  | ilock (ip : Inum)
  | iunlock (ip : Inum)
  | iput (ip : Inum)
  /-- Reads of the fields of a locked inode. -/
  | stat (ip : Inum)
  /-- Stores to the fields of a locked inode, and `iupdate(ip)`. -/
  | iupdate (ip : Inum) (major minor nlink : ℤ)
  /-- `readi(ip, &de, off, sizeof(de))`. -/
  | readDirent (ip : Inum) (off : ℕ)
  /-- `writei(ip, &de, off, sizeof(de))`. -/
  | writeDirent (ip : Inum) (off : ℕ) (de : Dirent)
  /-- `readi(ip, addr, off, n)` for the caller of `read`. -/
  | readi (ip : Inum) (off n : ℕ)
  /-- `writei(ip, addr, off, n)` of these bytes. -/
  | writei (ip : Inum) (off : ℕ) (data : List UInt8)
  | tables
  | setTables (t : Tables)
  | panic (why : Fault)

/-- The results; `none` stands for −1. -/
def FsOp.Ret : FsOp → Type
  | .ialloc _ => Inum
  | .stat _ => Stat
  | .readDirent _ _ => Option Dirent
  | .writeDirent _ _ _ => Bool
  | .readi _ _ _ => Option ℕ
  | .writei _ _ _ => Option ℕ
  | .tables => Tables
  | .panic _ => Empty
  | .iget _ | .idup _ | .ilock _ | .iunlock _ | .iput _ | .iupdate _ _ _ _ | .setTables _ => Unit

/-- A program of the kernel above the inode layer. -/
abbrev FsProg := Prog FsOp FsOp.Ret

def panic {α : Type} (why : Fault) : FsProg α := .call (.panic why) Empty.elim

-- The operations, as programs of one call.

def ialloc (type : FileType) : FsProg Inum := Prog.op (FsOp.ialloc type)
def iget (inum : Inum) : FsProg Unit := Prog.op (FsOp.iget inum)
def idup (ip : Inum) : FsProg Unit := Prog.op (FsOp.idup ip)
def ilock (ip : Inum) : FsProg Unit := Prog.op (FsOp.ilock ip)
def iunlock (ip : Inum) : FsProg Unit := Prog.op (FsOp.iunlock ip)
def iput (ip : Inum) : FsProg Unit := Prog.op (FsOp.iput ip)
def stat (ip : Inum) : FsProg Stat := Prog.op (FsOp.stat ip)
def iupdate (ip : Inum) (major minor nlink : ℤ) : FsProg Unit :=
  Prog.op (FsOp.iupdate ip major minor nlink)
def readDirent (ip : Inum) (off : ℕ) : FsProg (Option Dirent) := Prog.op (FsOp.readDirent ip off)
def writeDirent (ip : Inum) (off : ℕ) (de : Dirent) : FsProg Bool :=
  Prog.op (FsOp.writeDirent ip off de)
def readi (ip : Inum) (off n : ℕ) : FsProg (Option ℕ) := Prog.op (FsOp.readi ip off n)
def writei (ip : Inum) (off : ℕ) (data : List UInt8) : FsProg (Option ℕ) :=
  Prog.op (FsOp.writei ip off data)
def tables : FsProg Tables := Prog.op FsOp.tables
def setTables (t : Tables) : FsProg Unit := Prog.op (FsOp.setTables t)

/-- A C `short` computed as `n`. -/
def short (n : ℤ) : ℤ := Int.bmod n 0x10000

def iunlockput (ip : Inum) : FsProg Unit := do
  iunlock ip
  iput ip

/-! ## Directories -/

/-- The loop of `dirlookup`, at `off` with `n` entries to go. -/
def dirlookupFrom (dp : Inum) (name : Name) : ℕ → ℕ → FsProg (Option (Inum × ℕ))
  | 0, _ => return none
  | n + 1, off => do
      match ← readDirent dp off with
      | none => panic .dirlinkRead
      | some de =>
        if de.inum ≠ 0 ∧ name = de.name then
          iget de.inum
          return some (de.inum, off)
        else dirlookupFrom dp name n (off + direntSize)

/-- How often a loop `for(off = 0; off < size; off += sizeof(de))` runs. -/
def rounds (size : ℕ) : ℕ := (size + (direntSize - 1)) / direntSize

/-- `dirlookup`: the inode and the offset of the entry. -/
def dirlookup (dp : Inum) (name : Name) : FsProg (Option (Inum × ℕ)) := do
  let st ← stat dp
  if st.type ≠ some .dir then panic .dirlookupNotDir
  else dirlookupFrom dp name (rounds st.size) 0

/-- The loop of `dirlink` that looks for an empty entry. -/
def emptyDirent (dp : Inum) : ℕ → ℕ → FsProg ℕ
  | 0, off => return off
  | n + 1, off => do
      match ← readDirent dp off with
      | none => panic .dirlinkRead
      | some de => if de.inum = 0 then return off else emptyDirent dp n (off + direntSize)

/-- `dirlink`; false stands for −1. -/
def dirlink (dp : Inum) (name : Name) (inum : Inum) : FsProg Bool := do
  match ← dirlookup dp name with
  | some (ip, _) =>
    iput ip
    return false
  | none =>
    let st ← stat dp
    let off ← emptyDirent dp (rounds st.size) 0
    if ← writeDirent dp off ⟨inum, name⟩ then return true
    else panic .dirlink

/-- The loop of `isdirempty`, at `off` with `n` entries to go. -/
def isdiremptyFrom (dp : Inum) : ℕ → ℕ → FsProg Bool
  | 0, _ => return true
  | n + 1, off => do
      match ← readDirent dp off with
      | none => panic .isdiremptyReadi
      | some de =>
        if de.inum ≠ 0 then return false else isdiremptyFrom dp n (off + direntSize)

/-- `isdirempty`: the first two entries are not looked at. -/
def isdirempty (dp : Inum) : FsProg Bool := do
  let st ← stat dp
  isdiremptyFrom dp (rounds st.size - 2) (2 * direntSize)

/-! ## Paths -/

/-- `skipelem`: the next element of a path, cut to `DIRSIZ`, and the rest of the path
without leading slashes. -/
def skipelem (path : List Char) : Option (Name × List Char) :=
  let s := path.dropWhile (· = '/')
  if s = [] then none
  else some ((s.takeWhile (· ≠ '/')).take DIRSIZ,
    (s.dropWhile (· ≠ '/')).dropWhile (· = '/'))

/-- The elements that `skipelem` finds one after the other, at most `n`. -/
def elemsUpTo : ℕ → List Char → List Name
  | 0, _ => []
  | n + 1, path =>
    match skipelem path with
    | none => []
    | some (name, rest) => name :: elemsUpTo n rest

/-- The elements of a path; every one takes up a character of it. -/
def elems (path : List Char) : List Name := elemsUpTo path.length path

/-- The loop of `namex`, at `ip` with these elements to go.  An element is the last one
when `skipelem` leaves nothing behind it. -/
def walk (parent : Bool) : Inum → List Name → Name → FsProg (Option (Inum × Name))
  | ip, [], last =>
    if parent then do
      iput ip
      return none
    else return some (ip, last)
  | ip, name :: rest, _ => do
      ilock ip
      let st ← stat ip
      if st.type ≠ some .dir then
        iunlockput ip
        return none
      else if parent ∧ rest = [] then
        iunlock ip
        return some (ip, name)
      else
        match ← dirlookup ip name with
        | none =>
          iunlockput ip
          return none
        | some (next, _) =>
          iunlockput ip
          walk parent next rest name

/-- The files of the calling process. -/
def myproc (p : Pid) : FsProg ProcFiles := do
  let t ← tables
  -- Only processes make calls.
  return (t.proc p).getD ⟨0, fun _ => none⟩

/-- `namex`: the inode of the path, or of the directory that holds its last element, and
that element. -/
def namex (p : Pid) (path : List Char) (parent : Bool) : FsProg (Option (Inum × Name)) := do
  if path.head? = some '/' then
    iget ROOTINO
    walk parent ROOTINO (elems path) []
  else
    let me ← myproc p
    idup me.cwd
    walk parent me.cwd (elems path) []

def namei (p : Pid) (path : List Char) : FsProg (Option Inum) := do
  return (← namex p path false).map Prod.fst

def nameiparent (p : Pid) (path : List Char) : FsProg (Option (Inum × Name)) :=
  namex p path true

/-! ## The file table -/

/-- The first unused file, marked as used, if there is one. -/
def filealloc : FsProg (Option (Fin NFILE)) := do
  let t ← tables
  match (List.finRange NFILE).find? fun f => (t.file f).ref = 0 with
  | none => return none
  | some f =>
    setTables { t with file := update t.file f { t.file f with ref := 1 } }
    return some f

def filedup (f : Fin NFILE) : FsProg Unit := do
  let t ← tables
  if (t.file f).ref < 1 then panic .filedup
  else setTables { t with
    file := update t.file f { t.file f with ref := (t.file f).ref + 1 } }

def fileclose (f : Fin NFILE) : FsProg Unit := do
  let t ← tables
  let ff := t.file f
  if ff.ref < 1 then panic .fileclose
  else if 1 < ff.ref then
    setTables { t with file := update t.file f { ff with ref := ff.ref - 1 } }
  else
    setTables { t with
      file := update t.file f { ff with ref := 0, type := .none } }
    if ff.type = .inode then iput ff.ip

/-- `f->off = off`. -/
def setOff (f : Fin NFILE) (off : ℕ) : FsProg Unit := do
  let t ← tables
  setTables { t with file := update t.file f { t.file f with off := off } }

/-- `fileread`; `none` stands for −1. -/
def fileread (f : Fin NFILE) (n : ℕ) : FsProg (Option ℕ) := do
  let t ← tables
  let ff := t.file f
  if ff.readable = false ∨ ff.type ≠ .inode then return none
  else
    ilock ff.ip
    let r ← readi ff.ip ff.off n
    match r with
    | some m => setOff f (ff.off + m)
    | none => pure ()
    iunlock ff.ip
    return r

/-- The most that `filewrite` writes in one transaction. -/
def maxWrite : ℕ := ((LOGSIZE - 1 - 1 - 2) / 2) * 512

/-- The loop of `filewrite` over the pieces still to write. -/
def filewriteFrom (f : Fin NFILE) : List (List UInt8) → FsProg Bool
  | [] => return true
  | piece :: pieces => do
      let t ← tables
      let ff := t.file f
      ilock ff.ip
      let r ← writei ff.ip ff.off piece
      match r with
      | some m => setOff f (ff.off + m)
      | none => pure ()
      iunlock ff.ip
      match r with
      | none => return false
      | some m => if m ≠ piece.length then panic .shortFilewrite else filewriteFrom f pieces

/-- The pieces of at most `maxWrite` bytes that `filewrite` cuts its argument into, at most
`n` of them. -/
def pieces : ℕ → List UInt8 → List (List UInt8)
  | 0, _ => []
  | _ + 1, [] => []
  | n + 1, b :: bs => (b :: bs).take maxWrite :: pieces n ((b :: bs).drop maxWrite)

/-- `filewrite`; false stands for −1. -/
def filewrite (f : Fin NFILE) (data : List UInt8) : FsProg Bool := do
  let t ← tables
  let ff := t.file f
  if ff.writable = false ∨ ff.type ≠ .inode then return false
  else filewriteFrom f (pieces data.length data)

/-! ## System calls -/

def setProc (p : Pid) (me : Option ProcFiles) : FsProg Unit := do
  let t ← tables
  setTables { t with proc := update t.proc p me }

/-- `argfd`: the open file of a descriptor. -/
def argfd (p : Pid) (fd : ℕ) : FsProg (Option (Fin NOFILE × Fin NFILE)) := do
  let me ← myproc p
  if h : fd < NOFILE then return (me.ofile ⟨fd, h⟩).map fun f => (⟨fd, h⟩, f)
  else return none

/-- `fdalloc`: the first free descriptor, set to `f`. -/
def fdalloc (p : Pid) (f : Fin NFILE) : FsProg (Option (Fin NOFILE)) := do
  let me ← myproc p
  match (List.finRange NOFILE).find? fun fd => me.ofile fd = none with
  | none => return none
  | some fd =>
    setProc p (some { me with ofile := update me.ofile fd (some f) })
    return some fd

/-- `dp->nlink++` or `dp->nlink--`, and `iupdate(dp)`. -/
def addLinks (ip : Inum) (n : ℤ) : FsProg Unit := do
  let st ← stat ip
  iupdate ip st.major st.minor (short (st.nlink + n))

def dot : Name := ['.']
def dotdot : Name := ['.', '.']

/-- `create`: the new inode, or an existing file, locked. -/
def create (p : Pid) (path : List Char) (type : FileType) (major minor : ℤ) :
    FsProg (Option Inum) := do
  match ← nameiparent p path with
  | none => return none
  | some (dp, name) =>
    ilock dp
    match ← dirlookup dp name with
    | some (ip, _) =>
      iunlockput dp
      ilock ip
      let st ← stat ip
      if type = .file ∧ st.type = some .file then return some ip
      else
        iunlockput ip
        return none
    | none =>
      let ip ← ialloc type
      ilock ip
      iupdate ip (short major) (short minor) 1
      if type = .dir then
        addLinks dp 1
        if ¬(← dirlink ip dot ip) then panic .createDots
        else if ¬(← dirlink ip dotdot dp) then panic .createDots
      if ¬(← dirlink dp name ip) then panic .createDirlink
      else
        iunlockput dp
        return some ip

/-- The flags of `fcntl.h`. -/
def O_WRONLY : ℕ := 0x001
def O_RDWR : ℕ := 0x002
def O_CREATE : ℕ := 0x200

/-- `sys_open` from the inode on: a file and a descriptor for the locked `ip`. -/
def openInode (p : Pid) (ip : Inum) (omode : ℕ) : FsProg Bool := do
  match ← filealloc with
  | none =>
    iunlockput ip
    return false
  | some f =>
    match ← fdalloc p f with
    | none =>
      fileclose f
      iunlockput ip
      return false
    | some _ =>
      iunlock ip
      let t ← tables
      setTables { t with file := update t.file f { t.file f with
        type := .inode, ip := ip, off := 0,
        readable := omode &&& O_WRONLY = 0,
        writable := omode &&& O_WRONLY ≠ 0 ∨ omode &&& O_RDWR ≠ 0 } }
      return true

def sysOpen (p : Pid) (path : List Char) (omode : ℕ) : FsProg Bool := do
  if omode &&& O_CREATE ≠ 0 then
    match ← create p path .file 0 0 with
    | none => return false
    | some ip => openInode p ip omode
  else
    match ← namei p path with
    | none => return false
    | some ip =>
      ilock ip
      let st ← stat ip
      if st.type = some .dir ∧ omode ≠ 0 then
        iunlockput ip
        return false
      else openInode p ip omode

/-- `sys_mkdir` and `sys_mknod`. -/
def makeNode (p : Pid) (path : List Char) (type : FileType) (major minor : ℤ) :
    FsProg Bool := do
  match ← create p path type major minor with
  | none => return false
  | some ip =>
    iunlockput ip
    return true

def sysMkdir (p : Pid) (path : List Char) : FsProg Bool := makeNode p path .dir 0 0

def sysMknod (p : Pid) (path : List Char) (major minor : ℤ) : FsProg Bool :=
  makeNode p path .dev major minor

def sysClose (p : Pid) (fd : ℕ) : FsProg Bool := do
  match ← argfd p fd with
  | none => return false
  | some (fd, f) =>
    let me ← myproc p
    setProc p (some { me with ofile := update me.ofile fd none })
    fileclose f
    return true

def sysDup (p : Pid) (fd : ℕ) : FsProg Bool := do
  match ← argfd p fd with
  | none => return false
  | some (_, f) =>
    match ← fdalloc p f with
    | none => return false
    | some _ =>
      filedup f
      return true

def sysRead (p : Pid) (fd n : ℕ) : FsProg Bool := do
  match ← argfd p fd with
  | none => return false
  | some (_, f) => return (← fileread f n).isSome

def sysWrite (p : Pid) (fd : ℕ) (data : List UInt8) : FsProg Bool := do
  match ← argfd p fd with
  | none => return false
  | some (_, f) => filewrite f data

def sysChdir (p : Pid) (path : List Char) : FsProg Bool := do
  match ← namei p path with
  | none => return false
  | some ip =>
    ilock ip
    let st ← stat ip
    if st.type ≠ some .dir then
      iunlockput ip
      return false
    else
      iunlock ip
      let me ← myproc p
      iput me.cwd
      setProc p (some { me with cwd := ip })
      return true

/-- The end of `sys_link` when the new name cannot be made. -/
def linkBad (ip : Inum) : FsProg Bool := do
  ilock ip
  addLinks ip (-1)
  iunlockput ip
  return false

def sysLink (p : Pid) (old new : List Char) : FsProg Bool := do
  match ← namei p old with
  | none => return false
  | some ip =>
    ilock ip
    let st ← stat ip
    if st.type = some .dir then
      iunlockput ip
      return false
    else
      addLinks ip 1
      iunlock ip
      match ← nameiparent p new with
      | none => linkBad ip
      | some (dp, name) =>
        ilock dp
        if ← dirlink dp name ip then
          iunlockput dp
          iput ip
          return true
        else
          iunlockput dp
          linkBad ip

/-- `sys_unlink` from the locked entry on. -/
def unlinkEntry (dp ip : Inum) (off : ℕ) : FsProg Bool := do
  let st ← stat ip
  if ¬(← writeDirent dp off ⟨0, []⟩) then panic .unlinkWritei
  else
    if st.type = some .dir then addLinks dp (-1)
    iunlockput dp
    addLinks ip (-1)
    iunlockput ip
    return true

def sysUnlink (p : Pid) (path : List Char) : FsProg Bool := do
  match ← nameiparent p path with
  | none => return false
  | some (dp, name) =>
    ilock dp
    if name = dot ∨ name = dotdot then
      iunlockput dp
      return false
    else
      match ← dirlookup dp name with
      | none =>
        iunlockput dp
        return false
      | some (ip, off) =>
        ilock ip
        let st ← stat ip
        if st.nlink < 1 then panic .unlinkNlink
        else if st.type = some .dir then
          if ← isdirempty ip then unlinkEntry dp ip off
          else
            iunlockput ip
            iunlockput dp
            return false
        else unlinkEntry dp ip off

/-- What `fork` does to files: the child, in the slot `np`, shares the open files and the
working directory. -/
def forkFiles (p np : Pid) : FsProg Bool := do
  let me ← myproc p
  (List.finRange NOFILE).forM fun fd =>
    match me.ofile fd with
    | none => pure ()
    | some f => filedup f
  idup me.cwd
  setProc np (some me)
  return true

/-- What `exit` does to files. -/
def exitFiles (p : Pid) : FsProg Bool := do
  let me ← myproc p
  (List.finRange NOFILE).forM fun fd =>
    match me.ofile fd with
    | none => pure ()
    | some f => fileclose f
  iput me.cwd
  setProc p none
  return true

/-- The calls a process makes. -/
inductive Call
  | openFile (path : List Char) (omode : ℕ)
  | close (fd : ℕ)
  | read (fd n : ℕ)
  | write (fd : ℕ) (data : List UInt8)
  | mkdir (path : List Char)
  | mknod (path : List Char) (major minor : ℤ)
  | link (old new : List Char)
  | unlink (path : List Char)
  | chdir (path : List Char)
  | dup (fd : ℕ)
  | fork (np : Pid)
  | exit

/-- The program of a call; it returns whether the call succeeds. -/
def Call.prog (p : Pid) : Call → FsProg Bool
  | .openFile path omode => sysOpen p path omode
  | .close fd => sysClose p fd
  | .read fd n => sysRead p fd n
  | .write fd data => sysWrite p fd data
  | .mkdir path => sysMkdir p path
  | .mknod path major minor => sysMknod p path major minor
  | .link old new => sysLink p old new
  | .unlink path => sysUnlink p path
  | .chdir path => sysChdir p path
  | .dup fd => sysDup p fd
  | .fork np => forkFiles p np
  | .exit => exitFiles p

end Xv6.Fs
