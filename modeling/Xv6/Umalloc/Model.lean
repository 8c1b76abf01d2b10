import Xv6.Lib.LinkedCycle
import Xv6.Lib.Machine
import Xv6.Lib.Spans

/-!
# The allocator of user programs

`umalloc.c`.  Memory is the headers at each address; `sizeof(Header)` is 8, and pointers of
type `Header*` are byte addresses here, so that `p + n` is `p + 8 * n`.  The address of `base`,
a static variable, is below the heap.  `sbrk` fails or gives memory behind the end of the heap,
with any gap in between.  All addresses are below `KERNBASE`, so sums of them do not wrap.

A program writes what it likes into the blocks it has.

## Main definitions

* `free`, `morecore`, `malloc` — the functions.
* `State`, `step` — a program that calls them.
-/

namespace Xv6.Umalloc

open Function LinkedCycle Spans

/-- A block that `malloc` has returned: the address of its header, its size in units, and the
number of bytes that were asked for. -/
structure Block where
  addr : ℕ
  units : ℕ
  nbytes : ℕ
  deriving DecidableEq

def Block.span (b : Block) : Span := ⟨b.addr, 8 * b.units⟩

/-- `ptr` and `size` are the headers, `top` is the end of the heap.  No function reads `live`,
the blocks that are allocated, and `regions`, the memory that `sbrk` has given. -/
structure State where
  base : ℕ
  ptr : ℕ → ℕ
  size : ℕ → ℕ
  freep : ℕ
  top : ℕ
  live : List Block
  regions : List Span

/-- Whether the loop of `free` ends at `p`. -/
def ends (ptr : ℕ → ℕ) (bp p : ℕ) : Bool :=
  (bp > p && bp < ptr p) || (p ≥ ptr p && (bp > p || bp < ptr p))

/-- `free` joins the block at `bp` with the one behind `p` when they touch, or links it to it. -/
def joinNext (s : State) (p bp : ℕ) : State :=
  if bp + 8 * s.size bp = s.ptr p then
    { s with
      size := update s.size bp (s.size bp + s.size (s.ptr p))
      ptr := update s.ptr bp (s.ptr (s.ptr p)) }
  else { s with ptr := update s.ptr bp (s.ptr p) }

/-- `free` joins the block at `p` with the one at `bp` when they touch, or links it to it. -/
def joinPrev (s : State) (p bp : ℕ) : State :=
  if p + 8 * s.size p = bp then
    { s with
      size := update s.size p (s.size p + s.size bp)
      ptr := update s.ptr p (s.ptr bp) }
  else { s with ptr := update s.ptr p bp }

/-- `free`.  There is no result when the loop does not come to an end in as many rounds as
there are addresses. -/
def free (s : State) (ap : ℕ) : Option State :=
  let bp := ap - 8
  (walk s.ptr (ends s.ptr bp) (s.top + 1) s.freep).map fun p =>
    { joinPrev (joinNext s p bp) p bp with freep := p }

/-- `morecore`.  `gap` says how far behind the end of the heap the new memory is; `some none`
is the null pointer, after `sbrk` has failed. -/
def morecore (s : State) (nu : ℕ) (gap : Option ℕ) : Option (Option State) :=
  let nu := if nu < 4096 then 4096 else nu
  match gap with
  | none => some none
  | some gap =>
    let hp := s.top + gap
    (free { s with
      size := update s.size hp nu
      top := hp + 8 * nu
      regions := ⟨hp, 8 * nu⟩ :: s.regions } (hp + 8)).map some

/-- `nunits`, computed in type `uint`. -/
def units (nbytes : ℕ) : ℕ := (nbytes + 8 - 1) % 4294967296 / 8 + 1

/-- The block at `p` is taken out of the list, or its tail is. -/
def take (s : State) (nunits prevp p : ℕ) : State × ℕ :=
  if s.size p = nunits then
    ({ s with ptr := update s.ptr prevp (s.ptr p), freep := prevp }, p + 8)
  else
    let size := update s.size p (s.size p - nunits)
    let q := p + 8 * size p
    ({ s with size := update size q nunits, freep := prevp }, q + 8)

/-- The loop of `malloc`. -/
def search (nunits : ℕ) (gap : Option ℕ) : ℕ → State → ℕ → ℕ → Option (State × ℕ)
  | 0, _, _, _ => none
  | n + 1, s, prevp, p =>
    if nunits ≤ s.size p then some (take s nunits prevp p)
    else if p = s.freep then
      match morecore s nunits gap with
      | none => none
      | some none => some (s, 0)
      | some (some s) => search nunits gap n s s.freep (s.ptr s.freep)
    else search nunits gap n s p (s.ptr p)

/-- The list is set up in the first call. -/
def setup (s : State) : State :=
  if s.freep = 0 then
    { s with
      ptr := update s.ptr s.base s.base
      size := update s.size s.base 0
      freep := s.base }
  else s

/-- `malloc`; it returns 0 when there is no memory left. -/
def malloc (s : State) (nbytes : ℕ) (gap : Option ℕ) : Option (State × ℕ) :=
  let s := setup s
  search (units nbytes) gap (3 * s.top + 5) s s.freep (s.ptr s.freep)

/-- What a program does. -/
inductive Action
  | malloc (nbytes : ℕ) (gap : Option ℕ)
  | free (ap : ℕ)
  /-- A store into a block changes what would be the header at `a`. -/
  | store (a ptr size : ℕ)

/-- Address `a` is inside a block that is allocated, behind its header. -/
def Block.inside (a : ℕ) (b : Block) : Bool := b.addr < a && a < b.addr + 8 * b.units

def step (s : State) : Action → Option State
  | .malloc nbytes gap =>
    (malloc s nbytes gap).map fun r =>
      if r.2 = 0 then r.1
      else { r.1 with live := ⟨r.2 - 8, units nbytes, nbytes⟩ :: r.1.live }
  | .free ap =>
    if s.live.any fun b => b.addr + 8 == ap then
      free { s with live := s.live.filter fun b => !(b.addr + 8 == ap) } ap
    else none
  | .store a ptr size =>
    if s.live.any (Block.inside a) then
      some { s with
        ptr := update s.ptr a ptr
        size := update s.size a size }
    else none

/-- A program that has called none of the functions; any memory, and `base` below the heap. -/
def start (base top : ℕ) (ptr size : ℕ → ℕ) : State := ⟨base, ptr, size, 0, top, [], []⟩

end Xv6.Umalloc
