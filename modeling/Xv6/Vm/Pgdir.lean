import Xv6.Vm.Kalloc
import Mathlib.Data.List.FinRange
import Mathlib.Logic.Function.Basic

/-!
# Page tables and address spaces

`vm.c`, and the parts of `exec.c` and `proc.c` that make and change address spaces.  A page
directory is given by value: its own page, its page tables with theirs, and in them the
entries with the pages they map.  As long as no page has two uses, which is what is to be
shown, the value is what is in memory.

Virtual addresses are page numbers `v`; where the code compares the address `v * PGSIZE`
with a size in bytes, so does the model.  Sizes are `uint`s.  No size that is rounded up
is within a page of the end of the range.

The contents of pages are left out.  What `exec` reads from the file and from the memory of
the process is an argument of it: whether the reads succeed, the program headers, and the
lengths of the argument strings.

## Main definitions

* `PageDir`, `Table`, `Pte` — page directories, page tables and their entries.
* `walkpgdir`, `mappages`, `setupkvm`, `allocuvm`, `deallocuvm`, `freevm`, `copyuvm`,
  `loaduvm`, `copyout` — the functions of that name.
* `exec`, `growproc` — what the calls do to memory.
-/

namespace Xv6.Vm

/-- Entries of a page directory and of a page table. -/
def NPTENTRIES : ℕ := 1024
/-- The first kernel virtual page: `KERNBASE/PGSIZE`. -/
def KERNPAGE : ℕ := 0x80000
/-- `KERNBASE`, in bytes. -/
def KERNBASE : ℕ := KERNPAGE * PGSIZE
/-- The first page of the devices: `DEVSPACE/PGSIZE`. -/
def DEVSPACE : ℕ := 0xFE000
/-- The number of virtual pages. -/
def VPAGES : ℕ := 0x100000

/-- A page table entry that is present: the page it maps, and `PTE_W` and `PTE_U`. -/
structure Pte where
  page : Page
  writable : Bool
  user : Bool
  deriving DecidableEq

/-- A page table, and the page it is in. -/
structure Table where
  page : Page
  pte : Fin 1024 → Option Pte

/-- A page directory, and the page it is in. -/
structure PageDir where
  page : Page
  table : Fin 1024 → Option Table

/-- `PDX` of virtual page `v`. -/
def pdx (v : ℕ) : Fin 1024 := ⟨v / 1024 % 1024, Nat.mod_lt _ (Nat.succ_pos 1023)⟩

/-- `PTX` of virtual page `v`. -/
def ptx (v : ℕ) : Fin 1024 := ⟨v % 1024, Nat.mod_lt _ (Nat.succ_pos 1023)⟩

/-- The entry for virtual page `v`, if it is present. -/
def PageDir.pte (pd : PageDir) (v : ℕ) : Option Pte :=
  (pd.table (pdx v)).bind fun t => t.pte (ptx v)

def PageDir.setTable (pd : PageDir) (i : Fin 1024) (t : Table) : PageDir :=
  { pd with table := Function.update pd.table i (some t) }

/-- A store to the entry for virtual page `v`, in a page table that exists. -/
def PageDir.setPte (pd : PageDir) (v : ℕ) (e : Option Pte) : PageDir :=
  match pd.table (pdx v) with
  | none => pd
  | some t => pd.setTable (pdx v) { t with pte := Function.update t.pte (ptx v) e }

/-- `PGROUNDUP(sz)/PGSIZE` -/
def pgroundup (sz : ℕ) : ℕ := (sz + PGSIZE - 1) / PGSIZE

/-! ## `vm.c` -/

/-- `walkpgdir`: `none` is a null pointer, and otherwise the page table for `v` exists in
the directory returned. -/
def walkpgdir (pd : PageDir) (v : ℕ) (alloc : Bool) : MemProg (Option PageDir) :=
  match pd.table (pdx v) with
  | some _ => return some pd
  | none =>
    if alloc then do
      match ← kalloc with
      | none => return none
      | some p => return some (pd.setTable (pdx v) ⟨p, fun _ => none⟩)
    else return none

/-- `mappages` of `n` pages from `v` on to the pages from `pa` on; false stands for −1. -/
def mappages (pd : PageDir) (v pa : ℕ) (writable user : Bool) : ℕ → MemProg (Bool × PageDir)
  | 0 => return (true, pd)
  | n + 1 => do
      match ← walkpgdir pd v true with
      | none => return (false, pd)
      | some pd =>
        if (pd.pte v).isSome then panic .remap
        else mappages (pd.setPte v (some ⟨pa, writable, user⟩)) (v + 1) (pa + 1) writable user n

/-- An entry of `kmap`, in pages. -/
structure Kmap where
  virt : ℕ
  physStart : ℕ
  physEnd : ℕ
  writable : Bool

/-- The table `kmap`.  The last entry's end is 0 in the source, which is the end of the
address range. -/
def kmap (layout : Layout) : List Kmap :=
  [⟨KERNPAGE, 0, EXTMEM, true⟩,
    ⟨KERNPAGE + EXTMEM, EXTMEM, layout.data, false⟩,
    ⟨KERNPAGE + layout.data, layout.data, PHYSTOP, true⟩,
    ⟨DEVSPACE, DEVSPACE, VPAGES, true⟩]

/-- The loop of `setupkvm`; on failure it returns 0 and gives nothing back. -/
def mapKernel (pd : PageDir) : List Kmap → MemProg (Option PageDir)
  | [] => return some pd
  | k :: ks => do
      let (ok, pd) ← mappages pd k.virt k.physStart k.writable false (k.physEnd - k.physStart)
      if ok then mapKernel pd ks else return none

@[irreducible]
def setupkvm (layout : Layout) : MemProg (Option PageDir) := do
  match ← kalloc with
  | none => return none
  | some p => mapKernel ⟨p, fun _ => none⟩ (kmap layout)

/-- The loop of `deallocuvm` from page `v` on, at most `n` rounds. -/
def deallocFrom (oldsz : ℕ) (pd : PageDir) : ℕ → ℕ → MemProg PageDir
  | 0, _ => return pd
  | n + 1, v =>
    if v * PGSIZE < oldsz then do
      match ← walkpgdir pd v false with
      | none => deallocFrom oldsz pd n (v + (NPTENTRIES - 1) + 1)
      | some pd =>
        match pd.pte v with
        | some e =>
          if e.page = 0 then panic .kfree
          else
            kfree e.page
            deallocFrom oldsz (pd.setPte v none) n (v + 1)
        | none => deallocFrom oldsz pd n (v + 1)
    else return pd

/-- `deallocuvm`: the new size. -/
@[irreducible]
def deallocuvm (pd : PageDir) (oldsz newsz : ℕ) : MemProg (ℕ × PageDir) := do
  if oldsz ≤ newsz then return (oldsz, pd)
  else
    let pd ← deallocFrom oldsz pd (pgroundup oldsz - pgroundup newsz) (pgroundup newsz)
    return (newsz, pd)

/-- The loop of `allocuvm` from page `v` on, with `n` pages to go. -/
def allocFrom (oldsz newsz : ℕ) (pd : PageDir) : ℕ → ℕ → MemProg (ℕ × PageDir)
  | 0, _ => return (newsz, pd)
  | n + 1, v => do
      match ← kalloc with
      | none =>
        let (_, pd) ← deallocuvm pd newsz oldsz
        return (0, pd)
      | some mem =>
        let (ok, pd) ← mappages pd v mem true true 1
        if ok then allocFrom oldsz newsz pd n (v + 1)
        else
          let (_, pd) ← deallocuvm pd newsz oldsz
          kfree mem
          return (0, pd)

/-- `allocuvm`: the new size, or 0. -/
@[irreducible]
def allocuvm (pd : PageDir) (oldsz newsz : ℕ) : MemProg (ℕ × PageDir) :=
  if KERNBASE ≤ newsz then return (0, pd)
  else if newsz < oldsz then return (oldsz, pd)
  else allocFrom oldsz newsz pd (pgroundup newsz - pgroundup oldsz) (pgroundup oldsz)

/-- `freevm` of the page tables. -/
@[irreducible]
def freeTables (pd : PageDir) : MemProg Unit :=
  (List.finRange 1024).forM fun i =>
    match pd.table i with
    | none => pure ()
    | some t => kfree t.page

def freevm (pd : PageDir) : MemProg Unit := do
  let (_, pd) ← deallocuvm pd KERNBASE 0
  freeTables pd
  kfree pd.page

def clearpteu (pd : PageDir) (v : ℕ) : MemProg PageDir := do
  match ← walkpgdir pd v false with
  | none => panic .clearpteu
  | some pd => return pd.setPte v ((pd.pte v).map fun e => { e with user := false })

/-- The loop of `copyuvm` from page `v` of `pd` on, with `n` pages to go. -/
def copyFrom (pd d : PageDir) : ℕ → ℕ → MemProg (Option PageDir)
  | 0, _ => return some d
  | n + 1, v => do
      match ← walkpgdir pd v false with
      | none => panic .copyuvmNoPte
      | some _ =>
        match pd.pte v with
        | none => panic .copyuvmNotPresent
        | some e =>
          match ← kalloc with
          | none =>
            freevm d
            return none
          | some mem =>
            let (ok, d) ← mappages d v mem e.writable e.user 1
            if ok then copyFrom pd d n (v + 1)
            else
              freevm d
              return none

def copyuvm (layout : Layout) (pd : PageDir) (sz : ℕ) : MemProg (Option PageDir) := do
  match ← setupkvm layout with
  | none => return none
  | some d => copyFrom pd d (pgroundup sz) 0

/-- `inituvm`: one page at address 0.  Without a page the kernel does not come up. -/
def inituvm (pd : PageDir) : MemProg PageDir := do
  match ← kalloc with
  | none => panic .userinit
  | some mem =>
    let (_, pd) ← mappages pd 0 mem true true 1
    return pd

/-- The loop of `loaduvm` from page `v` on, with `n` pages to go; `reads i` says whether the
read of page `i` gives all it should. -/
def loadFrom (pd : PageDir) (reads : ℕ → Bool) : ℕ → ℕ → ℕ → MemProg Bool
  | 0, _, _ => return true
  | n + 1, v, i => do
      match ← walkpgdir pd v false with
      | none => panic .loaduvmNoPte
      | some _ => if reads i then loadFrom pd reads n (v + 1) (i + 1) else return false

def loaduvm (pd : PageDir) (addr filesz : ℕ) (reads : ℕ → Bool) : MemProg Bool :=
  if addr % PGSIZE ≠ 0 then panic .loaduvmAligned
  else loadFrom pd reads (pgroundup filesz) (addr / PGSIZE) 0

/-- `uva2ka`: whether the page at `v` is there and the user's.  The entry is read without a
look at whether there is one: without a page table it is the word at address 0 of the
process that runs, and `word0` says whether that has `PTE_P` and `PTE_U`.  If so, the store
that follows goes to a page that has nothing to do with `pd`. -/
def uva2ka (pd : PageDir) (word0 : Bool) (v : ℕ) : MemProg Bool := do
  match ← walkpgdir pd v false with
  | none => if word0 then panic .nullPte else return false
  | some pd => return (pd.pte v).any Pte.user

/-- The loop of `copyout` over `n` pages from `v` on. -/
def copyoutFrom (pd : PageDir) (word0 : Bool) : ℕ → ℕ → MemProg Bool
  | 0, _ => return true
  | n + 1, v => do
      if ← uva2ka pd word0 v then copyoutFrom pd word0 n (v + 1) else return false

/-- `copyout` of `len` bytes to address `va`. -/
def copyout (pd : PageDir) (word0 : Bool) (va len : ℕ) : MemProg Bool :=
  copyoutFrom pd word0 (if len = 0 then 0 else (va + len - 1) / PGSIZE + 1 - va / PGSIZE)
    (va / PGSIZE)

/-! ## `exec` and `growproc` -/

/-- A program header; `reads i` says whether page `i` of the segment can be read. -/
structure Proghdr where
  load : Bool
  vaddr : UInt32
  memsz : UInt32
  filesz : UInt32
  reads : ℕ → Bool

/-- What `exec` finds in the file: an ELF header, and the program headers that can be
read. -/
structure Image where
  elf : Bool
  phdrs : List (Option Proghdr)

/-- What `exec` finds in the memory of the process that calls it: the lengths of the
argument strings, and the word at address 0, as `uva2ka` has it. -/
structure Argv where
  lens : List ℕ
  word0 : Bool

/-- The loop of `exec` over the program headers, at size `sz`; `none` is a failure. -/
def loadSegments (pd : PageDir) (sz : ℕ) : List (Option Proghdr) → MemProg (Option ℕ × PageDir)
  | [] => return (some sz, pd)
  | none :: _ => return (none, pd)
  | some ph :: phs =>
    if ph.load = false then loadSegments pd sz phs
    else if ph.memsz < ph.filesz then return (none, pd)
    else if ph.vaddr + ph.memsz < ph.vaddr then return (none, pd)
    else do
      let (sz, pd) ← allocuvm pd sz (ph.vaddr + ph.memsz).toNat
      if sz = 0 then return (none, pd)
      else if ph.vaddr.toNat % PGSIZE ≠ 0 then return (none, pd)
      else if ← loaduvm pd ph.vaddr.toNat ph.filesz.toNat ph.reads then loadSegments pd sz phs
      else return (none, pd)

def MAXARG : ℕ := 32

/-- `x - n` as a `uint`. -/
def subWord (x n : ℕ) : ℕ := (x + (0x100000000 - n % 0x100000000)) % 0x100000000

/-- The loop of `exec` over the argument strings, of which `argc` have been pushed: the
stack pointer and the number of arguments. -/
def pushArgs (pd : PageDir) (word0 : Bool) (sp argc : ℕ) : List ℕ → MemProg (Option (ℕ × ℕ))
  | [] => return some (sp, argc)
  | len :: lens =>
    if MAXARG ≤ argc then return none
    else do
      let sp := subWord sp (len + 1) / 4 * 4
      if ← copyout pd word0 sp (len + 1) then pushArgs pd word0 sp (argc + 1) lens
      else return none

/-- The user stack: the strings, then the vector `ustack`. -/
def pushStack (pd : PageDir) (sz : ℕ) (argv : Argv) : MemProg Bool := do
  match ← pushArgs pd argv.word0 sz 0 argv.lens with
  | none => return false
  | some (sp, argc) =>
    copyout pd argv.word0 (subWord sp ((3 + argc + 1) * 4)) ((3 + argc + 1) * 4)

/-- `bad` in `exec`. -/
def execBad (pd : PageDir) : MemProg (Option (PageDir × ℕ)) := do
  freevm pd
  return none

/-- `exec` from `setupkvm` on: it has made the directory `pd`. -/
def execInto (old pd : PageDir) (phdrs : List (Option Proghdr)) (argv : Argv) :
    MemProg (Option (PageDir × ℕ)) := do
  let (sz, pd) ← loadSegments pd 0 phdrs
  match sz with
  | none => execBad pd
  | some sz =>
    let sz := pgroundup sz * PGSIZE
    let (sz, pd) ← allocuvm pd sz (sz + 2 * PGSIZE)
    if sz = 0 then execBad pd
    else
      let pd ← clearpteu pd (sz / PGSIZE - 2)
      if ← pushStack pd sz argv then
        freevm old
        return some (pd, sz)
      else execBad pd

/-- `exec` of a file with this image, or of none, by a process with page directory `old`:
the new address space, or `none` for −1. -/
def exec (layout : Layout) (old : PageDir) (image : Option Image) (argv : Argv) :
    MemProg (Option (PageDir × ℕ)) :=
  match image with
  | none => return none
  | some image =>
    if image.elf = false then return none
    else do
      match ← setupkvm layout with
      | none => return none
      | some pd => execInto old pd image.phdrs argv

/-- `growproc(n)` of a process with this directory and size: whether it succeeds, and the
directory and size it leaves. -/
def growproc (pd : PageDir) (sz : ℕ) (n : ℤ) : MemProg (Bool × PageDir × ℕ) := do
  let newsz := ((sz + n) % 0x100000000).toNat
  if 0 < n then
    let (r, pd) ← allocuvm pd sz newsz
    if r = 0 then return (false, pd, sz) else return (true, pd, r)
  else if n < 0 then
    let (r, pd) ← deallocuvm pd sz newsz
    if r = 0 then return (false, pd, sz) else return (true, pd, r)
  else return (true, pd, sz)

end Xv6.Vm
