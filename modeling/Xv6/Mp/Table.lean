import Mathlib.Data.Nat.Notation
import Mathlib.Logic.Function.Basic

/-!
# The walk over the MP configuration table

`mp.c`.  Memory is given by the addresses at which the kernel reads it.  The table does not reach
behind the last address, so that pointers into it are compared as their distances from its start.

An entry of an unknown type makes `mpinit` leave the `switch`, but not the loop: the pointer stays
where it is.

## Main definitions

* `mpsearch`, `mpconfig` — the functions that look for the table.
* `round`, `walk` — a round of the loop in `mpinit`, and the loop.
* `mpinit` — the function, with so many rounds at most.
* `Meets` — the walk comes to an entry of an unknown type.

## Main results

* `walk_of_meets`, `walk_of_not_meets` — when the loop ends.
* `mpinit_ends_iff` — when `mpinit` does what it should.
-/

namespace Xv6.Mp

/-- Maximum number of CPUs. -/
def NCPU : ℕ := 8

/-- `P2V` -/
def P2V (a : ℕ) : ℕ := (a + 2147483648) % 4294967296

variable (mem : ℕ → UInt8)

/-- The number in the `n` bytes at `p`, the low byte first. -/
def field (p : ℕ) : ℕ → ℕ
  | 0 => 0
  | n + 1 => (mem p).toNat + 256 * field (p + 1) n

/-- `sum` -/
def sum (addr len : ℕ) : UInt8 := (List.range len).foldl (fun s i => s + mem (addr + i)) 0

/-- `memcmp` with a string finds no difference. -/
def memcmp (p : ℕ) (s : List UInt8) : Bool := (List.range s.length).map (fun i => mem (p + i)) == s

/-- The loop of `mpsearch1` over `n` structures. -/
def searchFrom : ℕ → ℕ → Option ℕ
  | 0, _ => none
  | n + 1, p =>
    if memcmp mem p [95, 77, 80, 95] && sum mem p 16 == 0 then some p else searchFrom n (p + 16)

def mpsearch1 (a len : ℕ) : Option ℕ := searchFrom mem (len / 16) (P2V a)

def mpsearch : Option ℕ :=
  let bda := P2V 0x400
  let ebda := field mem (bda + 0x0E) 2 * 16
  let top := field mem (bda + 0x13) 2 * 1024
  let low :=
    if ebda ≠ 0 then mpsearch1 mem ebda 1024
    else mpsearch1 mem ((top + (4294967296 - 1024)) % 4294967296) 1024
  low <|> mpsearch1 mem 0xF0000 0x10000

/-- `conf->length` -/
def length (conf : ℕ) : ℕ := field mem (conf + 4) 2

/-- `mpconfig`: the `struct mp` and the `struct mpconf`. -/
def mpconfig : Option (ℕ × ℕ) :=
  match mpsearch mem with
  | none => none
  | some mp =>
    if field mem (mp + 4) 4 = 0 then none
    else
      let conf := P2V (field mem (mp + 4) 4)
      if memcmp mem conf [80, 67, 77, 80] = false then none
      else if mem (conf + 6) ≠ 1 ∧ mem (conf + 6) ≠ 4 then none
      else if sum mem conf (length mem conf) ≠ 0 then none
      else some (mp, conf)

/-- The types of table entries. -/
inductive Entry
  | proc
  | bus
  | ioapic
  | iointr
  | lintr
  deriving DecidableEq

def Entry.ofByte (b : UInt8) : Option Entry :=
  if b = 0 then some .proc
  else if b = 1 then some .bus
  else if b = 2 then some .ioapic
  else if b = 3 then some .iointr
  else if b = 4 then some .lintr
  else none

/-- What an entry adds to the pointer. -/
def Entry.size : Entry → ℕ
  | .proc => 20
  | _ => 8

theorem Entry.size_pos (k : Entry) : 0 < k.size := by
  cases k <;> decide

/-- The globals that `mpinit` sets; `imcr` says that external interrupts are masked in the IMCR. -/
structure State where
  ismp : Bool
  lapic : ℕ
  ncpu : ℕ
  apicid : ℕ → UInt8
  ioapicid : UInt8
  imcr : Bool

/-- They are zero before. -/
def bss : State := ⟨false, 0, 0, fun _ => 0, 0, false⟩

/-- A processor is counted while there is room in `cpus`. -/
def State.addCpu (s : State) (apicid : UInt8) : State :=
  if s.ncpu < NCPU then
    { s with apicid := Function.update s.apicid s.ncpu apicid, ncpu := s.ncpu + 1 }
  else s

/-- A round of the loop at `p`. -/
def round (p : ℕ) (s : State) : ℕ × State :=
  match Entry.ofByte (mem p) with
  | some .proc => (p + Entry.proc.size, s.addCpu (mem (p + 1)))
  | some .ioapic => (p + Entry.ioapic.size, { s with ioapicid := mem (p + 1) })
  | some k => (p + k.size, s)
  -- `break` leaves the `switch`
  | none => (p, { s with ismp := false })

/-- The loop up to `e`, if it ends before the given number of tests. -/
def walk (e : ℕ) : ℕ → ℕ → State → Option State
  | 0, _, _ => none
  | n + 1, p, s => if p < e then walk e n (round mem p s).1 (round mem p s).2 else some s

/-- `mpinit` behind the loop. -/
def settle (mp : ℕ) (s : State) : State :=
  if s.ismp = false then { s with ncpu := 1, lapic := 0, ioapicid := 0 }
  else if mem (mp + 12) ≠ 0 then { s with imcr := true }
  else s

/-- Where the entries begin: behind a `struct mpconf`. -/
def first (conf : ℕ) : ℕ := conf + 44

/-- `mpinit` before the loop. -/
def found (conf : ℕ) (s : State) : State :=
  { s with ismp := true, lapic := field mem (conf + 36) 4 }

/-- `mpinit` with at most `n` tests of the loop. -/
def mpinit (n : ℕ) (s : State) : Option State :=
  match mpconfig mem with
  | none => some s
  | some (mp, conf) =>
    (walk mem (conf + length mem conf) n (first conf) (found mem conf s)).map (settle mem mp)

/-- The walk from `p` comes to an entry of an unknown type before `e`. -/
inductive Meets (e : ℕ) : ℕ → Prop
  | here {p : ℕ} (hp : p < e) (hk : Entry.ofByte (mem p) = none) : Meets e p
  | next {p : ℕ} {k : Entry} (hp : p < e) (hk : Entry.ofByte (mem p) = some k)
      (h : Meets e (p + k.size)) : Meets e p

variable {mem} {e p n : ℕ} {s : State}

/-! ## The loop -/

theorem round_of_none (hk : Entry.ofByte (mem p) = none) : (round mem p s).1 = p := by
  simp only [round, hk]

theorem State.addCpu_spec (s : State) (apicid : UInt8) :
    (s.addCpu apicid).ismp = s.ismp ∧ (s.ncpu ≤ NCPU → (s.addCpu apicid).ncpu ≤ NCPU) := by
  rw [State.addCpu]
  split
  · rename_i hlt
    exact ⟨rfl, fun _ => hlt⟩
  · exact ⟨rfl, id⟩

/-- An entry of a known type is passed, and `ncpu` stays within `cpus`. -/
theorem round_of_some {k : Entry} (hk : Entry.ofByte (mem p) = some k) :
    (round mem p s).1 = p + k.size ∧ (round mem p s).2.ismp = s.ismp ∧
      (s.ncpu ≤ NCPU → (round mem p s).2.ncpu ≤ NCPU) := by
  cases k with
  | proc =>
    simp only [round, hk, true_and]
    exact s.addCpu_spec _
  | bus | ioapic | iointr | lintr =>
    simp only [round, hk, true_and]
    exact id

/-- **An unknown entry** is never left. -/
theorem walk_of_meets (h : Meets mem e p) (n : ℕ) (s : State) : walk mem e n p s = none := by
  induction h generalizing n s with
  | here hp hk =>
    induction n generalizing s with
    | zero => rfl
    | succ n ih =>
      rw [walk, if_pos hp, round_of_none hk]
      exact ih _
  | next hp hk _ ih =>
    cases n with
    | zero => rfl
    | succ n =>
      rw [walk, if_pos hp, (round_of_some hk).1]
      exact ih n _

/-- Otherwise every round gets nearer to the end. -/
theorem walk_of_not_meets (h : ¬Meets mem e p) (hn : e - p < n) (hismp : s.ismp = true)
    (hncpu : s.ncpu ≤ NCPU) :
    ∃ t, walk mem e n p s = some t ∧ t.ismp = true ∧ t.ncpu ≤ NCPU := by
  induction n generalizing p s with
  | zero => exact absurd hn (Nat.not_lt_zero _)
  | succ n ih =>
    rw [walk]
    by_cases hp : p < e
    · rw [if_pos hp]
      cases hk : Entry.ofByte (mem p) with
      | none => exact absurd (.here hp hk) h
      | some k =>
        obtain ⟨hnext, hflag, hcount⟩ := round_of_some (s := s) hk
        have hpos := k.size_pos
        rw [hnext]
        exact ih (fun hm => h (.next hp hk hm)) (by omega) (hflag.trans hismp) (hcount hncpu)
    · rw [if_neg hp]
      exact ⟨s, rfl, hismp, hncpu⟩

theorem settle_ncpu_le {mp : ℕ} (h : s.ncpu ≤ NCPU) : (settle mem mp s).ncpu ≤ NCPU := by
  rw [settle]
  split
  · exact (by decide : 1 ≤ NCPU)
  · split
    · exact h
    · exact h

/-! ## The function -/

/-- **The table walk.**  `mpinit` ends, having counted no more than `NCPU` processors and having
fallen back to one if there is an entry of an unknown type, exactly if there is none. -/
theorem mpinit_ends_iff {mp conf : ℕ} (hconf : mpconfig mem = some (mp, conf)) :
    (∃ n t, mpinit mem n bss = some t ∧ t.ncpu ≤ NCPU ∧
      (Meets mem (conf + length mem conf) (first conf) → t.ncpu = 1 ∧ t.lapic = 0)) ↔
      ¬Meets mem (conf + length mem conf) (first conf) := by
  constructor
  · rintro ⟨n, t, hrun, -⟩ hmeets
    rw [mpinit, hconf] at hrun
    simp only [walk_of_meets hmeets, Option.map_none] at hrun
    cases hrun
  · intro hnot
    obtain ⟨t, hwalk, -, hncpu⟩ := walk_of_not_meets hnot (Nat.lt_succ_self _)
      (s := found mem conf bss) rfl (Nat.zero_le _)
    have hrun : mpinit mem (conf + length mem conf - first conf + 1) bss =
        some (settle mem mp t) := by
      rw [mpinit, hconf]
      exact congrArg (Option.map (settle mem mp)) hwalk
    exact ⟨_, _, hrun, settle_ncpu_le hncpu, fun hmeets => absurd hmeets hnot⟩

/-! ## A table with one entry -/

/-- Memory with a `struct mp` where the extended BIOS data area would begin, and a table with one
entry of the given type. -/
def table (type checksum : UInt8) (p : ℕ) : UInt8 :=
  -- the bytes of the BIOS data area that give the segment `0x60`
  if p = P2V 0x40E then 0x60
  else if P2V 0x600 ≤ p ∧ p < P2V 0x610 then
    [95, 77, 80, 95, 0, 7, 0, 0, 1, 4, 153, 0, 0, 0, 0, 0].getD (p - P2V 0x600) 0
  else if P2V 0x700 ≤ p ∧ p < P2V 0x708 then
    [80, 67, 77, 80, 64, 0, 4, checksum].getD (p - P2V 0x700) 0
  else if p = P2V 0x72C then type
  else 0

theorem mpconfig_table_proc : mpconfig (table 0 140) = some (P2V 0x600, P2V 0x700) := by
  decide +kernel

theorem mpconfig_table_unknown : mpconfig (table 5 135) = some (P2V 0x600, P2V 0x700) := by
  decide +kernel

theorem not_meets_table_proc :
    ¬Meets (table 0 140) (P2V 0x700 + length (table 0 140) (P2V 0x700)) (first (P2V 0x700)) := by
  have hproc : Entry.ofByte (table 0 140 (first (P2V 0x700))) = some .proc := by decide +kernel
  intro h
  cases h with
  | here hp hk => exact absurd (hproc.symm.trans hk) (by decide)
  | next hp hk h =>
    cases hproc.symm.trans hk
    cases h with
    | here hp hk => exact absurd hp (by decide +kernel)
    | next hp hk h => exact absurd hp (by decide +kernel)

theorem mpinit_ends_one_proc :
    ∃ n t, mpinit (table 0 140) n bss = some t ∧ t.ncpu ≤ NCPU ∧
      (Meets (table 0 140) (P2V 0x700 + length (table 0 140) (P2V 0x700)) (first (P2V 0x700)) →
        t.ncpu = 1 ∧ t.lapic = 0) :=
  (mpinit_ends_iff mpconfig_table_proc).2 not_meets_table_proc

/-- With an entry of type 5 `mpinit` does not end. -/
theorem mpinit_unknown_entry :
    mpconfig (table 5 135) = some (P2V 0x600, P2V 0x700) ∧
      ¬∃ n t, mpinit (table 5 135) n bss = some t := by
  have hmeets : Meets (table 5 135) (P2V 0x700 + length (table 5 135) (P2V 0x700))
      (first (P2V 0x700)) := .here (by decide +kernel) (by decide +kernel)
  refine ⟨mpconfig_table_unknown, ?_⟩
  rintro ⟨n, t, hrun⟩
  rw [mpinit, mpconfig_table_unknown] at hrun
  simp only [walk_of_meets hmeets, Option.map_none] at hrun
  cases hrun

end Xv6.Mp
