import Xv6.Lib.Image
import Xv6.Lib.Interp
import Xv6.Vm.Pgdir

/-!
# The contents of memory

The functions of `vm.c` and `exec.c` that write to pages, with what they write.  They are programs
over the operations of the allocator and one more, a store to a page.  Without the stores they
are the programs that say which pages are used (`allocuvm_erase`).

What is in a page that `kalloc` hands out is arbitrary: `dirt` gives it.  So neither the bytes
that `kfree` fills a page with nor the pointer in a free page are stores here.  `uva2ka` reads the
entry that `walkpgdir` points to; when that is a null pointer, the program stops.

`exec` finds the local variables of its frame as they were left on the kernel stack.  What it
reads comes from an inode; a device that fails is taken to have stored nothing.  The strings of
`argv` are those in the memory of the process that calls it, which it does not touch before it
has returned.

## Main definitions

* `RamOp`, `RamProg`, `State`, `handle` — the operations, programs and what they do.
* `allocuvm`, `loaduvm`, `uva2ka`, `copyout`, `sysSbrk`, `exec` — the functions of that name.
* `byteAt` — a byte of user memory.
-/

namespace Xv6.Vm.Ram

open Xv6.Image (slice splice le unle)

/-! ## Stores -/

/-- The operations of the allocator, and a store to a page. -/
inductive RamOp
  | mem (o : MemOp)
  | store (p : Page) (off : ℕ) (bytes : List UInt8)

abbrev RamOp.Ret : RamOp → Type
  | .mem o => o.Ret
  | .store _ _ _ => Unit

/-- A program of the kernel that writes to pages. -/
abbrev RamProg := Prog RamOp RamOp.Ret

/-- The allocator, and the bytes of every page. -/
structure State where
  kmem : Kmem
  page : Page → ℕ → UInt8

/-- `dirt n` is what is in the page that call `n` of `kalloc` hands out. -/
structure Env extends Vm.Env where
  dirt : ℕ → ℕ → UInt8

/-- A page that is handed out. -/
def State.take (s : State) (m : Kmem) (dirt : ℕ → UInt8) : Option Page → State
  | none => { s with kmem := m }
  | some p => ⟨m, Function.update s.page p dirt⟩

/-- What the operations do. -/
def handle (env : Env) : Prog.Handler RamOp RamOp.Ret State Fault
  | .mem .kalloc, s =>
    (Vm.handle env.toEnv .kalloc s.kmem).map fun r =>
      (r.1, s.take r.2 (env.dirt s.kmem.calls) r.1)
  | .mem (.kfree p), s =>
    (Vm.handle env.toEnv (.kfree p) s.kmem).map fun r => (r.1, { s with kmem := r.2 })
  | .mem (.panic why), _ => .error why
  | .store p off bytes, s =>
    .ok ((), { s with page := Function.update s.page p (splice (s.page p) off bytes) })

def store (p : Page) (off : ℕ) (bytes : List UInt8) : RamProg Unit :=
  Prog.op (RamOp.store p off bytes)

/-- A program that does not write to pages. -/
def lift {α : Type} (m : MemProg α) : RamProg α := m.interp fun o => Prog.op (RamOp.mem o)

def panic {α : Type} (why : Fault) : RamProg α := .call (.mem (.panic why)) Empty.elim

/-- What is left of an operation without stores. -/
def RamOp.erase : (o : RamOp) → MemProg o.Ret
  | .mem o => Prog.op o
  | .store _ _ _ => pure ()

/-- A program without its stores. -/
def erase {α : Type} (m : RamProg α) : MemProg α := m.interp RamOp.erase

/-- The byte at a virtual address, if its page is mapped. -/
def byteAt (pd : PageDir) (s : State) (va : ℕ) : Option UInt8 :=
  (pd.pte (va / PGSIZE)).map fun e => s.page e.page (va % PGSIZE)

/-! ## `vm.c` -/

/-- The loop of `allocuvm` from page `v` on, with `n` pages to go. -/
def allocFrom (oldsz newsz : ℕ) (pd : PageDir) : ℕ → ℕ → RamProg (ℕ × PageDir)
  | 0, _ => return (newsz, pd)
  | n + 1, v => do
      match ← lift kalloc with
      | none =>
        let (_, pd) ← lift (deallocuvm pd newsz oldsz)
        return (0, pd)
      | some mem =>
        store mem 0 (List.replicate PGSIZE 0)
        let (ok, pd) ← lift (mappages pd v mem true true 1)
        if ok then allocFrom oldsz newsz pd n (v + 1)
        else
          let (_, pd) ← lift (deallocuvm pd newsz oldsz)
          lift (kfree mem)
          return (0, pd)

/-- `allocuvm`: the new size, or 0. -/
def allocuvm (pd : PageDir) (oldsz newsz : ℕ) : RamProg (ℕ × PageDir) :=
  if KERNBASE ≤ newsz then return (0, pd)
  else if newsz < oldsz then return (oldsz, pd)
  else allocFrom oldsz newsz pd (pgroundup newsz - pgroundup oldsz) (pgroundup oldsz)

/-- `uva2ka`: the page at `v`, if it is there and the user's. -/
def uva2ka (pd : PageDir) (v : ℕ) : RamProg (Option Page) := do
  match ← lift (walkpgdir pd v false) with
  | none => panic .nullPte
  | some pd =>
    match pd.pte v with
    | none => return none
    | some e => if e.user then return some e.page else return none

/-- The number of `uint` values. -/
def WORD : ℕ := 0x100000000

/-- The loop of `copyout`, for at most so many rounds: the bytes `buf` go to address `va`. -/
def copyoutFrom (pd : PageDir) : ℕ → ℕ → List UInt8 → RamProg Bool
  | 0, _, _ => return true
  | k + 1, va, buf =>
    if buf = [] then return true
    else do
      match ← uva2ka pd (va / PGSIZE) with
      | none => return false
      | some pa =>
        let n := min (PGSIZE - va % PGSIZE) buf.length
        store pa (va % PGSIZE) (buf.take n)
        copyoutFrom pd k ((va / PGSIZE + 1) * PGSIZE % WORD) (buf.drop n)

/-- `copyout`; every round takes a byte at least. -/
def copyout (pd : PageDir) (va : ℕ) (buf : List UInt8) : RamProg Bool :=
  copyoutFrom pd buf.length va buf

/-! ## `sbrk` -/

/-- `growproc(n)` of a process with this directory and size: whether it succeeds, and the
directory and size it leaves. -/
def growproc (pd : PageDir) (sz : ℕ) (n : ℤ) : RamProg (Bool × PageDir × ℕ) := do
  let newsz := ((sz + n) % 0x100000000).toNat
  if 0 < n then
    let (r, pd) ← allocuvm pd sz newsz
    if r = 0 then return (false, pd, sz) else return (true, pd, r)
  else if n < 0 then
    let (r, pd) ← lift (deallocuvm pd sz newsz)
    if r = 0 then return (false, pd, sz) else return (true, pd, r)
  else return (true, pd, sz)

/-- `sys_sbrk(n)`: the old size, or `none` for −1, with the directory and the size. -/
def sysSbrk (pd : PageDir) (sz : ℕ) (n : ℤ) : RamProg (Option ℕ × PageDir × ℕ) := do
  let addr := sz
  let (ok, pd, sz) ← growproc pd sz n
  if ok then return (some addr, pd, sz) else return (none, pd, sz)

/-! ## Inodes that `exec` reads -/

/-- What a path may name.  A device may have a read function: what its `k`-th call returns when
it is asked for `n` bytes, `none` for −1. -/
inductive Inode
  | file (content : List UInt8)
  | dir (content : List UInt8)
  | dev (read : Option (ℕ → ℕ → Option (List UInt8)))

/-- `readi(ip, dst, off, n)`, when the device has been read `k` times: the bytes it stores,
`none` for −1. -/
def Inode.readi (ip : Inode) (k off n : ℕ) : Option (List UInt8) :=
  match ip with
  | .file c | .dir c =>
    if c.length < off ∨ WORD ≤ off + n then none else some ((c.drop off).take n)
  | .dev none => none
  | .dev (some read) => (read k n).map (·.take n)

/-- The value of `readi`, as a `uint`. -/
def count : Option (List UInt8) → ℕ
  | none => 0xffffffff
  | some bytes => bytes.length

/-- What is in a buffer after `readi`. -/
def fill (buf : ℕ → UInt8) : Option (List UInt8) → ℕ → UInt8
  | none => buf
  | some bytes => splice buf 0 bytes

/-- The `w` bytes at offset `a` of a structure, as a number. -/
def field (buf : ℕ → UInt8) (a w : ℕ) : ℕ := unle (slice buf a w)

/-! ## `struct elfhdr` and `struct proghdr` -/

def elfSize : ℕ := 52
def phSize : ℕ := 32
/-- `ELF_MAGIC`. -/
def ELF_MAGIC : ℕ := 0x464C457F
/-- `ELF_PROG_LOAD`. -/
def ELF_PROG_LOAD : ℕ := 1

def elfMagic (elf : ℕ → UInt8) : ℕ := field elf 0 4
def elfEntry (elf : ℕ → UInt8) : ℕ := field elf 24 4
def elfPhoff (elf : ℕ → UInt8) : ℕ := field elf 28 4
def elfPhnum (elf : ℕ → UInt8) : ℕ := field elf 44 2

def phType (ph : ℕ → UInt8) : ℕ := field ph 0 4
def phOff (ph : ℕ → UInt8) : ℕ := field ph 4 4
def phVaddr (ph : ℕ → UInt8) : ℕ := field ph 8 4
def phFilesz (ph : ℕ → UInt8) : ℕ := field ph 16 4
def phMemsz (ph : ℕ → UInt8) : ℕ := field ph 20 4

/-! ## `exec` -/

/-- The loop of `loaduvm` with `n` pages to go, of which the next is page `i` of the segment and
page `v` of memory; `k` counts the reads. -/
def loadFrom (pd : PageDir) (ip : Inode) (offset sz : ℕ) : ℕ → ℕ → ℕ → ℕ → RamProg Bool
  | 0, _, _, _ => return true
  | n + 1, v, i, k => do
      match ← lift (walkpgdir pd v false) with
      | none => panic .loaduvmNoPte
      | some pd =>
        -- PTE_ADDR(*pte), of an entry that need not be present
        let pa := ((pd.pte v).map Pte.page).getD 0
        let n1 := if sz - i * PGSIZE < PGSIZE then sz - i * PGSIZE else PGSIZE
        let r := ip.readi k ((offset + i * PGSIZE) % WORD) n1
        store pa 0 (r.getD [])
        if count r ≠ n1 then return false else loadFrom pd ip offset sz n (v + 1) (i + 1) (k + 1)

def loaduvm (pd : PageDir) (addr : ℕ) (ip : Inode) (offset sz k : ℕ) : RamProg Bool :=
  if addr % PGSIZE ≠ 0 then panic .loaduvmAligned
  else loadFrom pd ip offset sz (pgroundup sz) (addr / PGSIZE) 0 k

/-- The loop of `exec` over the program headers, with `n` to go and the next at offset `off` of
the file; `ph` is the local variable. -/
def loadSegments (ip : Inode) : ℕ → PageDir → ℕ → (ℕ → UInt8) → ℕ → ℕ →
    RamProg (Option ℕ × PageDir)
  | 0, pd, sz, _, _, _ => return (some sz, pd)
  | n + 1, pd, sz, ph, off, k => do
      let r := ip.readi k off phSize
      let ph := fill ph r
      if count r ≠ phSize then return (none, pd)
      else if phType ph ≠ ELF_PROG_LOAD then
        loadSegments ip n pd sz ph ((off + phSize) % WORD) (k + 1)
      else if phMemsz ph < phFilesz ph then return (none, pd)
      else if (phVaddr ph + phMemsz ph) % WORD < phVaddr ph then return (none, pd)
      else
        let (sz, pd) ← allocuvm pd sz ((phVaddr ph + phMemsz ph) % WORD)
        if sz = 0 then return (none, pd)
        else if phVaddr ph % PGSIZE ≠ 0 then return (none, pd)
        else if ← loaduvm pd (phVaddr ph) ip (phOff ph) (phFilesz ph) (k + 1) then
          loadSegments ip n pd sz ph ((off + phSize) % WORD) (k + 1 + pgroundup (phFilesz ph))
        else return (none, pd)

/-- `ustack[i] = w`. -/
def setWord (ustack : ℕ → ℕ) (i w : ℕ) : ℕ → ℕ := Function.update ustack i w

/-- The loop of `exec` over the argument strings, of which `argc` have been pushed. -/
def pushArgs (pd : PageDir) : List (List UInt8) → ℕ → ℕ → (ℕ → ℕ) →
    RamProg (Option (ℕ × ℕ × (ℕ → ℕ)))
  | [], sp, argc, ustack => return some (sp, argc, ustack)
  | arg :: argv, sp, argc, ustack => do
      if MAXARG ≤ argc then return none
      else
        let sp := subWord sp (arg.length + 1) / 4 * 4
        if ← copyout pd sp (arg ++ [0]) then
          pushArgs pd argv sp (argc + 1) (setWord ustack (3 + argc) sp)
        else return none

/-- `ustack` in its last state. -/
def finish (ustack : ℕ → ℕ) (sp argc : ℕ) : ℕ → ℕ :=
  setWord (setWord (setWord (setWord ustack (3 + argc) 0) 0 0xffffffff) 1 argc) 2
    (subWord sp ((argc + 1) * 4))

/-- The user stack: the strings, then the vector `ustack`; the stack pointer. -/
def pushStack (pd : PageDir) (sz : ℕ) (argv : List (List UInt8)) (ustack : ℕ → ℕ) :
    RamProg (Option ℕ) := do
  match ← pushArgs pd argv sz 0 ustack with
  | none => return none
  | some (sp, argc, ustack) =>
    let ustack := finish ustack sp argc
    let sp := subWord sp ((3 + argc + 1) * 4)
    if ← copyout pd sp (((List.range (3 + argc + 1)).map ustack).flatMap (le 4)) then
      return some sp
    else return none

/-- What `exec` changes of a process. -/
structure Proc where
  pgdir : PageDir
  sz : ℕ
  name : List UInt8
  eip : ℕ
  esp : ℕ

/-- The local variables of `exec` that are not set before they are filled. -/
structure Locals where
  elf : ℕ → UInt8
  ph : ℕ → UInt8
  ustack : ℕ → ℕ

/-- What follows the last slash of a path. -/
def baseName (path : List UInt8) : List UInt8 :=
  (path.reverse.takeWhile (· ≠ 47)).reverse

/-- `safestrcpy(proc->name, last, sizeof(proc->name))`. -/
def procName (path : List UInt8) : List UInt8 := (baseName path).take 15

/-- `bad` in `exec`. -/
def execBad (proc : Proc) (pd : PageDir) : RamProg (Bool × Proc) := do
  lift (freevm pd)
  return (false, proc)

/-- `exec` from `setupkvm` on: it has made the directory `pd`. -/
def execInto (proc : Proc) (path : List UInt8) (ip : Inode) (argv : List (List UInt8))
    (elf : ℕ → UInt8) (locals : Locals) (pd : PageDir) : RamProg (Bool × Proc) := do
  let (sz, pd) ← loadSegments ip (elfPhnum elf) pd 0 locals.ph (elfPhoff elf) 1
  match sz with
  | none => execBad proc pd
  | some sz =>
    let sz := pgroundup sz * PGSIZE
    let (sz, pd) ← allocuvm pd sz (sz + 2 * PGSIZE)
    if sz = 0 then execBad proc pd
    else
      let pd ← lift (clearpteu pd (sz / PGSIZE - 2))
      match ← pushStack pd sz argv locals.ustack with
      | none => execBad proc pd
      | some sp =>
        lift (freevm proc.pgdir)
        return (true, ⟨pd, sz, procName path, elfEntry elf, sp⟩)

/-- `exec(path, argv)` by a process, where `path` names the inode `ip` or none: whether it
returns 0, and the process. -/
def exec (layout : Layout) (proc : Proc) (path : List UInt8) (ip : Option Inode)
    (argv : List (List UInt8)) (locals : Locals) : RamProg (Bool × Proc) :=
  match ip with
  | none => return (false, proc)
  | some ip => do
      let r := ip.readi 0 0 elfSize
      let elf := fill locals.elf r
      -- the comparison is one of unsigned numbers
      if count r < elfSize then return (false, proc)
      else if elfMagic elf ≠ ELF_MAGIC then return (false, proc)
      else
        match ← lift (setupkvm layout) with
        | none => return (false, proc)
        | some pd => execInto proc path ip argv elf locals pd

end Xv6.Vm.Ram
