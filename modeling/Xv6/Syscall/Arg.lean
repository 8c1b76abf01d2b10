import Xv6.Param

/-!
# System-call arguments

What a system call sees when it runs: one 32-bit address space holding the caller's
memory below `proc->sz` and the kernel above `KERNBASE`, and the functions of
`syscall.c` that fetch the caller's arguments.

Addresses and `int`s are 32-bit words and all pointer arithmetic wraps.  An address
with no page behind it has no byte, and a load from it is a page fault in kernel mode,
on which `trap` panics; here such a load is `none`.

## Main definitions

* `readWord` — a 32-bit load.
* `ProcField.offset` — where the fields of `struct proc` are.
* `Kernel` — a kernel in which the caller's `struct proc`, its trap frame and its memory
  are mapped.
* `fetchint`, `argint`.
-/

namespace Xv6.Syscall

/-- A machine word: an address, an `int` or a `uint`. -/
abbrev Word := BitVec 32

/-- The address space a system call runs in, byte by byte. -/
abbrev Mem := Word → Option (BitVec 8)

/-- A load of the word at `a`, low byte first. -/
def readWord (m : Mem) (a : Word) : Option Word := do
  let b₀ ← m a
  let b₁ ← m (a + 1)
  let b₂ ← m (a + 2)
  let b₃ ← m (a + 3)
  return b₃ ++ b₂ ++ b₁ ++ b₀

/-- A load depends on four bytes. -/
theorem readWord_congr {m m' : Mem} {a : Word} (h₀ : m a = m' a)
    (h₁ : m (a + 1) = m' (a + 1)) (h₂ : m (a + 2) = m' (a + 2)) (h₃ : m (a + 3) = m' (a + 3)) :
    readWord m a = readWord m' a := by
  simp only [readWord, h₀, h₁, h₂, h₃]

/-- A load does not fault when its four bytes are mapped. -/
theorem readWord_mapped {m : Mem} {a : Word} (h₀ : (m a).isSome) (h₁ : (m (a + 1)).isSome)
    (h₂ : (m (a + 2)).isSome) (h₃ : (m (a + 3)).isSome) : ∃ w, readWord m a = some w := by
  obtain ⟨b₀, h₀⟩ := Option.isSome_iff_exists.mp h₀
  obtain ⟨b₁, h₁⟩ := Option.isSome_iff_exists.mp h₁
  obtain ⟨b₂, h₂⟩ := Option.isSome_iff_exists.mp h₂
  obtain ⟨b₃, h₃⟩ := Option.isSome_iff_exists.mp h₃
  exact ⟨b₃ ++ b₂ ++ b₁ ++ b₀, by
    simp only [readWord, h₀, h₁, h₂, h₃, Option.bind_eq_bind, Option.bind_some, pure]⟩

/-! ## The layout of `struct proc` -/

/-- The fields of `struct proc`. -/
inductive ProcField
  | sz | pgdir | kstack | state | pid | parent | tf | context | chan | killed | ofile | cwd | name
  | ctime | etime | rtime | processCounter
  | childCTime | childRTime | childETime | childPiority | allChildSize | piority
  deriving DecidableEq, Repr

namespace ProcField

/-- The fields in the order they are declared in, each with its size in bytes. -/
def layout : List (ProcField × ℕ) :=
  [(sz, 4), (pgdir, 4), (kstack, 4), (state, 4), (pid, 4), (parent, 4), (tf, 4), (context, 4),
    (chan, 4), (killed, 4), (ofile, 4 * NOFILE), (cwd, 4), (name, 16), (ctime, 4), (etime, 4),
    (rtime, 4), (processCounter, 4), (childCTime, 4 * 64), (childRTime, 4 * 64),
    (childETime, 4 * 64), (childPiority, 4 * 64), (allChildSize, 4), (piority, 4)]

/-- Where a field starts: after all fields declared before it. -/
def offset (f : ProcField) : Word :=
  BitVec.ofNat 32 ((layout.takeWhile (·.1 ≠ f)).foldl (fun n field => n + field.2) 0)

end ProcField

/-- `sizeof(struct proc)`. -/
def procSize : Word :=
  BitVec.ofNat 32 (ProcField.layout.foldl (fun n field => n + field.2) 0)

/-- The offset of `esp` in `struct trapframe`: the eight registers `pusha` saves, four
segment registers, `trapno`, `err`, `eip`, `cs` and `eflags` come first. -/
def espOffset : Word := 4 * (8 + 4 + 5)

/-! ## The kernel a system call runs in -/

/-- The first kernel address. -/
def KERNBASE : Word := 0x80000000

/-- A kernel about to run a system call.  `stack` is what the word of the kernel stack
that becomes the local variable of the call holds before the call sets it. -/
structure Kernel where
  mem : Mem
  /-- The address of the caller's `struct proc`. -/
  proc : Word
  stack : Word
  /-- `proc->sz`. -/
  sz : Word
  /-- `proc->tf`. -/
  tf : Word
  /-- The caller's stack pointer, `proc->tf->esp`. -/
  esp : Word
  /-- `proc->allChildSize`. -/
  allChildSize : Word
  sz_eq : readWord mem (proc + ProcField.sz.offset) = some sz
  tf_eq : readWord mem (proc + ProcField.tf.offset) = some tf
  esp_eq : readWord mem (tf + espOffset) = some esp
  allChildSize_eq : readWord mem (proc + ProcField.allChildSize.offset) = some allChildSize
  /-- The caller's memory ends below the kernel. -/
  sz_le : sz ≤ KERNBASE
  /-- The caller's memory is mapped. -/
  user_mapped : ∀ a, a < sz → (mem a).isSome
  /-- So is the whole of its `struct proc`. -/
  proc_mapped : ∀ i, i < procSize → (mem (proc + i)).isSome

/-- `fetchint`: the word at `addr` in the caller's memory, or no value, for the result
−1, if the word is not within it. -/
def fetchint (k : Kernel) (addr : Word) : Option (Option Word) := do
  let sz ← readWord k.mem (k.proc + ProcField.sz.offset)
  if sz ≤ addr ∨ sz < addr + 4 then return none
  else return some (← readWord k.mem addr)

/-- `argint`: the `n`th word of the arguments on the caller's stack. -/
def argint (k : Kernel) (n : Word) : Option (Option Word) := do
  let tf ← readWord k.mem (k.proc + ProcField.tf.offset)
  let esp ← readWord k.mem (tf + espOffset)
  fetchint k (esp + 4 + 4 * n)

theorem fetchint_eq (k : Kernel) (addr : Word) :
    fetchint k addr =
      if k.sz ≤ addr ∨ k.sz < addr + 4 then some none else (readWord k.mem addr).map some := by
  simp only [fetchint, k.sz_eq, Option.bind_eq_bind, Option.bind_some, pure]
  split <;> cases readWord k.mem addr <;> rfl

theorem argint_eq (k : Kernel) (n : Word) : argint k n = fetchint k (k.esp + 4 + 4 * n) := by
  simp only [argint, k.tf_eq, k.esp_eq, Option.bind_eq_bind, Option.bind_some]

/-- The four bytes of a word that passes the test of `fetchint` are the caller's. -/
theorem fetchint_within {sz addr : Word} (hsz : sz ≤ KERNBASE)
    (h : ¬(sz ≤ addr ∨ sz < addr + 4)) :
    addr < sz ∧ addr + 1 < sz ∧ addr + 2 < sz ∧ addr + 3 < sz := by
  simp only [KERNBASE] at hsz
  refine ⟨?_, ?_, ?_, ?_⟩ <;> bv_omega

/-- What `fetchint` returns depends on the caller's memory alone. -/
theorem fetchint_congr {k k' : Kernel} (hsz : k'.sz = k.sz)
    (hmem : ∀ a, a < k.sz → k'.mem a = k.mem a) (addr : Word) :
    fetchint k' addr = fetchint k addr := by
  rw [fetchint_eq, fetchint_eq, hsz]
  split
  · rfl
  · rename_i h
    obtain ⟨h₀, h₁, h₂, h₃⟩ := fetchint_within k.sz_le h
    rw [readWord_congr (hmem _ h₀) (hmem _ h₁) (hmem _ h₂) (hmem _ h₃)]

end Xv6.Syscall
