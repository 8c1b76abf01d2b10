import Xv6.Param
import Mathlib.Data.Fintype.Basic

/-!
# Inodes

The constants and types of `fs.h` and `stat.h` that the layers of the file system share.
-/

namespace Xv6.Fs

/-- The direct block addresses of an inode. -/
def NDIRECT : ℕ := 12
/-- The i-number of the root directory. -/
def ROOTINO : ℕ := 1

/-- An i-number.  All inodes are on one device. -/
abbrev Inum := ℕ

/-- The types of `stat.h`: `T_DIR`, `T_FILE` and `T_DEV`. -/
inductive FileType
  | dir | file | dev
  deriving DecidableEq, Repr

end Xv6.Fs
