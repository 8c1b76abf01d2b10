import Mathlib.Data.Nat.Notation

/-!
# Kernel configuration

The constants of `param.h`, `fs.h` and `proc.h` that more than one module uses,
under the names the source gives them.
-/

namespace Xv6

/-- Maximum number of processes. -/
def NPROC : ℕ := 64
/-- Open files per process. -/
def NOFILE : ℕ := 16
/-- Open files per system. -/
def NFILE : ℕ := 100
/-- Maximum number of active i-nodes. -/
def NINODE : ℕ := 50
/-- Maximum number of blocks any file-system operation writes. -/
def MAXOPBLOCKS : ℕ := 10
/-- Maximum number of data blocks in the on-disk log. -/
def LOGSIZE : ℕ := MAXOPBLOCKS * 3
/-- Size of the file system in blocks. -/
def FSSIZE : ℕ := 1000
/-- Timer ticks a process of the two lower queues keeps the CPU. -/
def QUANTA : ℕ := 5

instance : @NeZero ℕ Zero.ofOfNat0 NPROC := ⟨Nat.succ_ne_zero 63⟩

end Xv6
