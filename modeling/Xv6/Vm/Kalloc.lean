import Xv6.Lib.Prog
import Mathlib.Data.List.Basic

/-!
# Physical pages

`kalloc.c`: the pages between the end of the kernel and `PHYSTOP`, handed out and taken
back one at a time.  The functions of `vm.c` and `exec.c` are programs over the two
operations, and over panics.

A page is named by its number, its physical address divided by `PGSIZE`, so it is aligned.
`kalloc` fails when the list is empty; it may also fail at any other call, which covers
every number of pages that others hold.  `calls` counts the calls, so that an environment
can say which of them fail.

## Main definitions

* `Layout` — where the linker put the kernel.
* `MemOp`, `MemProg` — the operations, and programs over them.
* `Kmem`, `handle` — the free list, and what the operations do to it.
* `freerange` — what `kinit1` and `kinit2` do.
-/

namespace Xv6.Vm

/-- A physical page number. -/
abbrev Page := ℕ

/-- Bytes in a page. -/
def PGSIZE : ℕ := 4096
/-- The number of the first page that is not memory: `PHYSTOP/PGSIZE`. -/
def PHYSTOP : ℕ := 0xE000
/-- Pages that `kinit1` frees at most: 4 MB. -/
def EARLY : ℕ := 0x400
/-- The first page of the kernel's text: `EXTMEM/PGSIZE`. -/
def EXTMEM : ℕ := 0x100

/-- Where the linker put the kernel: its writable data start at page `data`, and `stop` is
the first page after the symbol `end`. -/
structure Layout where
  data : ℕ
  stop : ℕ
  text_lt : EXTMEM < data
  data_le : data ≤ stop
  stop_le : stop ≤ EARLY

/-- What stops the kernel: its panics, and what it does not survive in the model.  A page
that is freed twice makes the list of free pages circular, which a list is not.  `nullPte`
is a store through what stands at address 0, `kvmalloc` a kernel without a page directory,
`pipeclose` the use of a pipe that is gone. -/
inductive Fault
  | kfree | freedTwice | remap | copyuvmNoPte | copyuvmNotPresent | loaduvmAligned
  | loaduvmNoPte | clearpteu | nullPte | kvmalloc | userinit | filedup | fileclose | pipeclose
  | initExiting
  deriving DecidableEq, Repr

/-- The operations of the allocator. -/
inductive MemOp
  | kalloc
  | kfree (p : Page)
  | panic (why : Fault)

/-- The results; `kalloc` may return 0. -/
abbrev MemOp.Ret : MemOp → Type
  | .kalloc => Option Page
  | .kfree _ => Unit
  | .panic _ => Empty

/-- A program of the kernel over the allocator. -/
abbrev MemProg := Prog MemOp MemOp.Ret

def kalloc : MemProg (Option Page) := Prog.op MemOp.kalloc
def kfree (p : Page) : MemProg Unit := Prog.op (MemOp.kfree p)
def panic {α : Type} (why : Fault) : MemProg α := .call (.panic why) Empty.elim

/-- `kmem`, and how often `kalloc` has been called. -/
structure Kmem where
  freelist : List Page
  calls : ℕ
  deriving DecidableEq

/-- The linked kernel, the number of processors besides the first, and which calls of
`kalloc` fail although there is a page. -/
structure Env where
  layout : Layout
  others : ℕ
  fails : ℕ → Bool

/-- What the operations do. -/
def handle (env : Env) : Prog.Handler MemOp MemOp.Ret Kmem Fault
  | .kalloc, m =>
    match m.freelist with
    | [] => .ok (none, { m with calls := m.calls + 1 })
    | p :: ps =>
      if env.fails m.calls then .ok (none, { m with calls := m.calls + 1 })
      else .ok (some p, ⟨ps, m.calls + 1⟩)
  | .kfree p, m =>
    if p < env.layout.stop ∨ PHYSTOP ≤ p then .error .kfree
    else if p ∈ m.freelist then .error .freedTwice
    else .ok ((), { m with freelist := p :: m.freelist })
  | .panic why, _ => .error why

/-- `freerange` over `n` pages from `p` on. -/
def freerange (p : Page) : ℕ → MemProg Unit
  | 0 => return
  | n + 1 => do
      kfree p
      freerange (p + 1) n

/-- `kinit1(end, P2V(4*1024*1024))` -/
def kinit1 (layout : Layout) : MemProg Unit := freerange layout.stop (EARLY - layout.stop)

/-- `kinit2(P2V(4*1024*1024), P2V(PHYSTOP))` -/
def kinit2 : MemProg Unit := freerange EARLY (PHYSTOP - EARLY)

end Xv6.Vm
