import Xv6.Lib.Prog
import Xv6.Mkfs.Model

/-!
# The blocks of the file system

`fs.c` from `balloc` to `writei`, and `filewrite`, on the bytes of the disk.  A buffer that is
locked is seen by nobody else, so `bread` gives the bytes of a block, and `log_write` with the
changed bytes puts them there.  The disk keeps a list of the blocks that have been passed to
`log_write` between `begin_op` and `end_op`; no function reads it.

There is one device, and its super block is the one that `mkfs` writes.  The inodes are locked:
a function gets the copy in memory and returns the one it leaves.

## Main definitions

* `DiskOp`, `BlockProg`, `Disk`, `handle` — the operations, programs and what they do.
* `balloc`, `bfree`, `iupdate`, `bmap`, `itrunc`, `readi`, `writei`, `filewrite` — the functions
  of that name.
-/

namespace Xv6.Fs.Blocks

open Image
open Mkfs (BSIZE NINDIRECT MAXFILE IPB IBLOCK sb)

/-! ## The disk -/

/-- The panics. -/
inductive Fault
  | outOfBlocks | freeingFreeBlock | outOfRange | shortFilewrite
  deriving DecidableEq, Repr

/-- What the functions do to the disk. -/
inductive DiskOp
  | bread (b : ℕ)
  | logWrite (b : ℕ) (data : List UInt8)
  | beginOp
  | endOp
  | panic (why : Fault)

abbrev DiskOp.Ret : DiskOp → Type
  | .bread _ => List UInt8
  | .logWrite _ _ => Unit
  | .beginOp => Unit
  | .endOp => Unit
  | .panic _ => Empty

abbrev BlockProg := Prog DiskOp DiskOp.Ret

/-- The bytes of the disk, as the buffer cache shows them, the blocks that have been passed to
`log_write` since `begin_op`, and those of the sections before. -/
structure Disk where
  bytes : ℕ → UInt8
  logged : List ℕ
  sections : List (List ℕ)

def handle : Prog.Handler DiskOp DiskOp.Ret Disk Fault
  | .bread b, d => .ok (slice d.bytes (512 * b) BSIZE, d)
  | .logWrite b data, d =>
    .ok ((), { d with bytes := splice d.bytes (512 * b) data, logged := b :: d.logged })
  | .beginOp, d => .ok ((), { d with logged := [] })
  | .endOp, d => .ok ((), { d with logged := [], sections := d.logged :: d.sections })
  | .panic why, _ => .error why

def bread (b : ℕ) : BlockProg (List UInt8) := Prog.op (DiskOp.bread b)
def logWrite (b : ℕ) (data : List UInt8) : BlockProg Unit := Prog.op (DiskOp.logWrite b data)
def beginOp : BlockProg Unit := Prog.op DiskOp.beginOp
def endOp : BlockProg Unit := Prog.op DiskOp.endOp
def panic {α : Type} (why : Fault) : BlockProg α := .call (.panic why) Empty.elim

/-! ## The bitmap -/

/-- Bits in a block. -/
def BPB : ℕ := BSIZE * 8

/-- The block of the bitmap with the bit of block `b`. -/
def BBLOCK (b : ℕ) : ℕ := b / BPB + sb.bmapstart

/-- `bp->data[bi/8] & m`. -/
def bit (buf : List UInt8) (bi : ℕ) : Bool := (buf.getD (bi / 8) 0).toNat.testBit (bi % 8)

/-- `bp->data[bi/8] |= m`. -/
def setBit (buf : List UInt8) (bi : ℕ) : List UInt8 :=
  buf.set (bi / 8) (buf.getD (bi / 8) 0 ||| 1 <<< UInt8.ofNat (bi % 8))

/-- `bp->data[bi/8] &= ~m`. -/
def clearBit (buf : List UInt8) (bi : ℕ) : List UInt8 :=
  buf.set (bi / 8) (buf.getD (bi / 8) 0 &&& ~~~(1 <<< UInt8.ofNat (bi % 8)))

def bzero (bno : ℕ) : BlockProg Unit := logWrite bno (List.replicate BSIZE 0)

/-- The loop of `balloc` over the blocks of the bitmap, with `k` to go, of which the next begins
with the bit of block `b`. -/
def ballocFrom : ℕ → ℕ → BlockProg ℕ
  | 0, _ => panic .outOfBlocks
  | k + 1, b => do
      let buf ← bread (BBLOCK b)
      match (List.range (min BPB (sb.size - b))).find? fun bi => !bit buf bi with
      | none => ballocFrom k (b + BPB)
      | some bi =>
        logWrite (BBLOCK b) (setBit buf bi)
        bzero (b + bi)
        return b + bi

@[irreducible]
def balloc : BlockProg ℕ := ballocFrom ((sb.size + BPB - 1) / BPB) 0

def bfree (b : ℕ) : BlockProg Unit := do
  let buf ← bread (BBLOCK b)
  if bit buf (b % BPB) then logWrite (BBLOCK b) (clearBit buf (b % BPB))
  else panic .freeingFreeBlock

/-! ## Inodes -/

/-- `struct inode`: the number and the copy of the inode. -/
structure Inode where
  inum : ℕ
  din : Mkfs.Dinode

def iupdate (ip : Inode) : BlockProg Unit := do
  let buf ← bread (IBLOCK ip.inum)
  logWrite (IBLOCK ip.inum) (patch buf (ip.inum % IPB * 64) ip.din.bytes)

/-- `ip->addrs[i]`. -/
def Inode.addr (ip : Inode) (i : ℕ) : ℕ := ip.din.addrs.getD i 0

/-- `ip->addrs[i] = b`. -/
def Inode.setAddr (ip : Inode) (i b : ℕ) : Inode :=
  { ip with din := { ip.din with addrs := ip.din.addrs.set i b } }

/-- `a[j]`, of the words in a block. -/
def wordAt (buf : List UInt8) (j : ℕ) : ℕ := unle ((buf.drop (4 * j)).take 4)

/-- The first part of `bmap` of a block behind the direct ones: there is an indirect block. -/
def loadIndirect (ip : Inode) : BlockProg Inode :=
  if ip.addr NDIRECT = 0 then do
    let addr ← balloc
    return ip.setAddr NDIRECT addr
  else return ip

/-- The block of index `bn` of a file, which is allocated when there is none. -/
def bmap (ip : Inode) (bn : ℕ) : BlockProg (ℕ × Inode) :=
  if bn < NDIRECT then
    if ip.addr bn = 0 then do
      let addr ← balloc
      return (addr, ip.setAddr bn addr)
    else return (ip.addr bn, ip)
  else if bn - NDIRECT < NINDIRECT then do
    let ip ← loadIndirect ip
    let buf ← bread (ip.addr NDIRECT)
    if wordAt buf (bn - NDIRECT) = 0 then do
      let addr ← balloc
      logWrite (ip.addr NDIRECT) (patch buf (4 * (bn - NDIRECT)) (le 4 addr))
      return (addr, ip)
    else return (wordAt buf (bn - NDIRECT), ip)
  else panic .outOfRange

/-- The loop of `itrunc` over the direct blocks, of which `i` are to go. -/
def freeDirect (ip : Inode) : ℕ → BlockProg Inode
  | 0 => return ip
  | i + 1 =>
    let j := NDIRECT - (i + 1)
    if ip.addr j = 0 then freeDirect ip i
    else do
      bfree (ip.addr j)
      freeDirect (ip.setAddr j 0) i

/-- The second part of `itrunc`. -/
def freeIndirect (ip : Inode) : BlockProg Inode :=
  if ip.addr NDIRECT = 0 then return ip
  else do
    let buf ← bread (ip.addr NDIRECT)
    (List.range NINDIRECT).forM fun j =>
      if wordAt buf j = 0 then pure () else bfree (wordAt buf j)
    bfree (ip.addr NDIRECT)
    return ip.setAddr NDIRECT 0

def itrunc (ip : Inode) : BlockProg Inode := do
  let ip ← freeDirect ip NDIRECT
  let ip ← freeIndirect ip
  let ip := { ip with din := { ip.din with size := 0 } }
  iupdate ip
  return ip

/-! ## Contents -/

/-- `T_DEV`. -/
def T_DEV : ℕ := 3
/-- `NDEV`. -/
def NDEV : ℕ := 10
/-- `MAXFILE * BSIZE`. -/
def MAXBYTES : ℕ := MAXFILE * BSIZE
/-- The number of `uint` values. -/
def WORD : ℕ := 0x100000000

/-- `struct devsw`: what the functions of a driver return, `none` for −1.  A driver may lack
them. -/
structure Devsw where
  read : Option (ℕ → Option (List UInt8))
  write : Option (List UInt8 → Option ℕ)

/-- The loop of `readi`, for at most so many rounds: `n` bytes from `off` on. -/
def readFrom : ℕ → Inode → ℕ → ℕ → BlockProg (List UInt8 × Inode)
  | 0, ip, _, _ => return ([], ip)
  | k + 1, ip, off, n =>
    if n = 0 then return ([], ip)
    else do
      let (addr, ip) ← bmap ip (off / BSIZE)
      let buf ← bread addr
      let m := min n (BSIZE - off % BSIZE)
      let (rest, ip) ← readFrom k ip (off + m) (n - m)
      return ((buf.drop (off % BSIZE)).take m ++ rest, ip)

/-- `readi(ip, dst, off, n)`: the bytes that it stores, `none` for −1. -/
def readi (devsw : ℕ → Devsw) (ip : Inode) (off n : ℕ) : BlockProg (Option (List UInt8) × Inode) :=
  if ip.din.type = T_DEV then
    -- a negative `short` is a large number
    if NDEV ≤ ip.din.major then return (none, ip)
    else return ((devsw ip.din.major).read.bind fun f => f n, ip)
  else if ip.din.size < off ∨ (off + n) % WORD < off then return (none, ip)
  else do
    let n := if ip.din.size < off + n then ip.din.size - off else n
    let (bytes, ip) ← readFrom n ip off n
    return (some bytes, ip)

/-- The loop of `writei`, for at most so many rounds: the bytes `src` to `off`; the offset
behind them. -/
def writeFrom : ℕ → Inode → ℕ → List UInt8 → BlockProg (ℕ × Inode)
  | 0, ip, off, _ => return (off, ip)
  | k + 1, ip, off, src =>
    if src = [] then return (off, ip)
    else do
      let (addr, ip) ← bmap ip (off / BSIZE)
      let buf ← bread addr
      let m := min src.length (BSIZE - off % BSIZE)
      logWrite addr (patch buf (off % BSIZE) (src.take m))
      writeFrom k ip (off + m) (src.drop m)

/-- `writei(ip, src, off, n)`, where `src` are the `n` bytes: what it returns, `none` for −1. -/
def writei (devsw : ℕ → Devsw) (ip : Inode) (src : List UInt8) (off : ℕ) :
    BlockProg (Option ℕ × Inode) :=
  if ip.din.type = T_DEV then
    if NDEV ≤ ip.din.major then return (none, ip)
    else return ((devsw ip.din.major).write.bind fun f => f src, ip)
  else if ip.din.size < off ∨ (off + src.length) % WORD < off then return (none, ip)
  else if MAXBYTES < off + src.length then return (none, ip)
  else do
    let (off, ip) ← writeFrom src.length ip off src
    if 0 < src.length ∧ ip.din.size < off then
      let ip := { ip with din := { ip.din with size := off } }
      iupdate ip
      return (some src.length, ip)
    else return (some src.length, ip)

/-! ## `filewrite` -/

/-- `max` in `filewrite`. -/
def maxChunk : ℕ := (LOGSIZE - 1 - 1 - 2) / 2 * 512

/-- The loop of `filewrite`, for at most so many rounds: whether all of `src` is written, and the
offset of the file. -/
def filewriteFrom (devsw : ℕ → Devsw) :
    ℕ → Inode → ℕ → List UInt8 → BlockProg (Bool × Inode × ℕ)
  | 0, ip, off, src => return (src.isEmpty, ip, off)
  | k + 1, ip, off, src =>
    if src = [] then return (true, ip, off)
    else do
      let n1 := min src.length maxChunk
      beginOp
      let (r, ip) ← writei devsw ip (src.take n1) off
      endOp
      match r with
      | none => return (false, ip, off)
      | some r =>
        if r = n1 then filewriteFrom devsw k ip ((off + r) % WORD) (src.drop n1)
        else panic .shortFilewrite

/-- `filewrite` of an open file that is an inode: what it returns, `none` for −1, and the offset
of the file. -/
def filewrite (devsw : ℕ → Devsw) (writable : Bool) (ip : Inode) (off : ℕ) (src : List UInt8) :
    BlockProg (Option ℕ × Inode × ℕ) :=
  if writable = false then return (none, ip, off)
  else do
    let (ok, ip, off) ← filewriteFrom devsw src.length ip off src
    return (if ok then some src.length else none, ip, off)

end Xv6.Fs.Blocks
