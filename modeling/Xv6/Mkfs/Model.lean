import Xv6.Fs.Inode
import Xv6.Lib.Image

/-!
# The layout of the file system that `mkfs` makes

The constants of `fs.h`, the super block as `main` of `mkfs.c` fills it in, and the inode as it
stands in a sector: `xshort` and `xint` put the low byte first.

## Main definitions

* `sb` — the super block.
* `Dinode`, `Dinode.bytes`, `Dinode.ofBytes` — an inode, and its place in a sector.
-/

namespace Xv6.Mkfs

open Image
open Fs (NDIRECT)

/-! ## Layout -/

/-- Block size. -/
def BSIZE : ℕ := 512
/-- The inodes that there is room for. -/
def NINODES : ℕ := 200
/-- Block numbers in an indirect block. -/
def NINDIRECT : ℕ := BSIZE / 4
/-- The most blocks of a file. -/
def MAXFILE : ℕ := NDIRECT + NINDIRECT
/-- Inodes per block. -/
def IPB : ℕ := BSIZE / 64
def nbitmap : ℕ := FSSIZE / (BSIZE * 8) + 1
def ninodeblocks : ℕ := NINODES / IPB + 1
def nlog : ℕ := LOGSIZE
/-- The boot block, the super block, the log, the inodes and the bitmap. -/
def nmeta : ℕ := 2 + nlog + ninodeblocks + nbitmap

/-- `struct superblock`. -/
structure Superblock where
  size : ℕ
  nblocks : ℕ
  ninodes : ℕ
  nlog : ℕ
  logstart : ℕ
  inodestart : ℕ
  bmapstart : ℕ
  deriving DecidableEq

/-- What `main` puts into `sb`. -/
def sb : Superblock where
  size := FSSIZE
  nblocks := FSSIZE - nmeta
  ninodes := NINODES
  nlog := nlog
  logstart := 2
  inodestart := 2 + nlog
  bmapstart := 2 + nlog + ninodeblocks

/-- Block containing inode `i`. -/
def IBLOCK (i : ℕ) : ℕ := i / IPB + sb.inodestart

/-- `T_FILE`. -/
def T_FILE : ℕ := 2

/-- `struct dinode`; `addrs` has `NDIRECT + 1` block numbers. -/
structure Dinode where
  type : ℕ
  major : ℕ
  minor : ℕ
  nlink : ℕ
  size : ℕ
  addrs : List ℕ
  deriving DecidableEq

/-- The bytes of an inode; `xshort` and `xint` put the low byte first. -/
def Dinode.bytes (d : Dinode) : List UInt8 :=
  le 2 d.type ++ le 2 d.major ++ le 2 d.minor ++ le 2 d.nlink ++ le 4 d.size ++
    d.addrs.flatMap (le 4)

def Dinode.ofBytes (bs : List UInt8) : Dinode where
  type := unle (bs.take 2)
  major := unle ((bs.drop 2).take 2)
  minor := unle ((bs.drop 4).take 2)
  nlink := unle ((bs.drop 6).take 2)
  size := unle ((bs.drop 8).take 4)
  addrs := words (bs.drop 12)

/-- Where inode `i` is. -/
def inoAddr (i : ℕ) : ℕ := 16384 + 64 * i

/-- **An inode is read back as it was written.** -/
theorem ofBytes_bytes {d : Dinode} (htype : d.type < 65536) (hmajor : d.major < 65536)
    (hminor : d.minor < 65536) (hnlink : d.nlink < 65536) (hsize : d.size < 4294967296)
    (haddrs : ∀ a ∈ d.addrs, a < 4294967296) : Dinode.ofBytes d.bytes = d := by
  have h1 := unle_le_two htype
  have h2 := unle_le_two hmajor
  have h3 := unle_le_two hminor
  have h4 := unle_le_two hnlink
  have h5 := unle_le_four hsize
  have h6 := words_flatMap_le haddrs
  simp only [le] at h1 h2 h3 h4 h5
  simp only [Dinode.bytes, Dinode.ofBytes, le, List.cons_append, List.nil_append,
    List.take_succ_cons, List.take_zero, List.drop_succ_cons, List.drop_zero, h1, h2, h3, h4, h5]
  congr 1

theorem Dinode.length_bytes {d : Dinode} (h : d.addrs.length = 13) : d.bytes.length = 64 := by
  simp only [Dinode.bytes, List.length_append, length_le, length_flatMap_le, h]

/-- An inode that was read, with a new size and new block numbers, is read back as well. -/
theorem ofBytes_bytes_with (bs : List UInt8) {size : ℕ} {addrs : List ℕ}
    (hsize : size < 4294967296) (haddrs : ∀ a ∈ addrs, a < 4294967296) :
    Dinode.ofBytes { Dinode.ofBytes bs with size := size, addrs := addrs }.bytes =
      { Dinode.ofBytes bs with size := size, addrs := addrs } :=
  ofBytes_bytes (unle_lt_two (List.length_take_le ..)) (unle_lt_two (List.length_take_le ..))
    (unle_lt_two (List.length_take_le ..)) (unle_lt_two (List.length_take_le ..)) hsize haddrs

end Xv6.Mkfs
