import Xv6.Syscall.Arg
import Mathlib.Tactic.ByContra
import Mathlib.Tactic.SplitIfs

/-!
# The child-statistics system calls

`getAllChildsCtime`, `getAllChildsRtime`, `getAllChildsEtime` and `getChildPiorityAt`
return one word of an array of the caller's `struct proc`, at an index the caller gives.
The calls ignore whether `argint` found an index, and none of them compares the index
with `allChildSize`.

What a caller may learn is what `SameView` keeps fixed: its own memory and stack pointer,
`allChildSize` and the entries recorded for its children.  A call is `Confined` for an
argument when its result is a function of that view, and −1 when the argument is not the
index of a recorded child.

## Main results

* `child_stats_confined` — a call is confined exactly when the argument is the index of
  a recorded child.
* `child_stats_leak` — it returns what an earlier occupant of the slot left in the
  array, or what the kernel stack selects.
-/

namespace Xv6.Syscall

/-! ## The calls -/

/-- The body the four calls share: `childAt` starts as `init`, `argint(0, &childAt)` may
set it, and the word at that index of the array `f` is returned. -/
def childRecord (f : ProcField) (init : Word) (k : Kernel) : Option Word := do
  let arg ← argint k 0
  let childAt := arg.getD init
  readWord k.mem (k.proc + f.offset + 4 * childAt)

def sysGetAllChildsRtime (k : Kernel) : Option Word := childRecord .childRTime (-1) k

def sysGetAllChildsEtime (k : Kernel) : Option Word := childRecord .childETime (-1) k

-- The next two declare `childAt` without a value.

def sysGetAllChildsCtime (k : Kernel) : Option Word := childRecord .childCTime k.stack k

def sysGetChildPiorityAt (k : Kernel) : Option Word := childRecord .childPiority k.stack k

/-- The system calls about a caller's children. -/
inductive Call
  | getAllChildsCtime | getAllChildsRtime | getAllChildsEtime | getChildPiorityAt
  deriving DecidableEq, Repr

namespace Call

/-- The result of a call; `none` is a page fault in the kernel. -/
def run : Call → Kernel → Option Word
  | getAllChildsCtime => sysGetAllChildsCtime
  | getAllChildsRtime => sysGetAllChildsRtime
  | getAllChildsEtime => sysGetAllChildsEtime
  | getChildPiorityAt => sysGetChildPiorityAt

/-- The array a call reads. -/
def array : Call → ProcField
  | getAllChildsCtime => .childCTime
  | getAllChildsRtime => .childRTime
  | getAllChildsEtime => .childETime
  | getChildPiorityAt => .childPiority

/-- What `childAt` is when `argint` does not set it. -/
def init : Call → Kernel → Word
  | getAllChildsCtime, k | getChildPiorityAt, k => k.stack
  | getAllChildsRtime, _ | getAllChildsEtime, _ => -1

end Call

/-- Entry `i` of the array a call reads, for any word `i`. -/
def Kernel.entry (k : Kernel) (c : Call) (i : Word) : Option Word :=
  readWord k.mem (k.proc + c.array.offset + 4 * i)

/-- A call returns the entry at the argument it fetched, or at what `childAt` held. -/
theorem Call.run_eq (c : Call) {k : Kernel} {arg : Option Word} (harg : argint k 0 = some arg) :
    c.run k = k.entry c (arg.getD (c.init k)) := by
  have hbody (f : ProcField) (w : Word) :
      childRecord f w k = readWord k.mem (k.proc + f.offset + 4 * arg.getD w) := by
    simp only [childRecord, harg, Option.bind_eq_bind, Option.bind_some]
  cases c <;> exact hbody _ _

/-- The 64 entries of each array lie in `struct proc`. -/
theorem Kernel.entry_mapped (k : Kernel) (c : Call) {i : Word} (hi : i < 64) :
    ∃ w, k.entry c i = some w := by
  have hmap (j : Word) (hj : j < 4) : (k.mem (k.proc + c.array.offset + 4 * i + j)).isSome := by
    rw [BitVec.add_assoc, BitVec.add_assoc]
    refine k.proc_mapped _ ?_
    have hsize : procSize = 1172 := by decide
    have hoff : c.array.offset ≤ 908 := by cases c <;> decide
    rw [hsize]
    bv_omega
  refine readWord_mapped ?_ (hmap 1 (by decide)) (hmap 2 (by decide)) (hmap 3 (by decide))
  simpa using hmap 0 (by decide)

/-! ## What the caller may learn -/

/-- The two kernels look the same to the caller: its memory, the stack pointer it
trapped with, `allChildSize` and the recorded entries are equal.  The rest of the
process table, the unrecorded entries and the kernel stack may differ. -/
structure SameView (k k' : Kernel) : Prop where
  sz : k'.sz = k.sz
  user : ∀ a, a < k.sz → k'.mem a = k.mem a
  esp : k'.esp = k.esp
  allChildSize : k'.allChildSize = k.allChildSize
  records : ∀ c i, i < k.allChildSize → k'.entry c i = k.entry c i

theorem SameView.refl (k : Kernel) : SameView k k :=
  ⟨rfl, fun _ _ => rfl, rfl, rfl, fun _ _ _ => rfl⟩

/-- Both kernels fetch the same arguments. -/
theorem SameView.argint_eq {k k' : Kernel} (h : SameView k k') (n : Word) :
    argint k' n = argint k n := by
  rw [Syscall.argint_eq, Syscall.argint_eq, h.esp, fetchint_congr h.sz h.user]

/-- The fetched argument is the index, as a signed `int`, of one of `n` recorded
children. -/
def Recorded (arg : Option Word) (n : Word) : Prop :=
  ∃ i, arg = some i ∧ 0 ≤ i.toInt ∧ i.toInt < n.toInt

/-- For this fetched argument and this `allChildSize`, a call returns, its result is the
same in any two kernels the caller cannot tell apart, and it is an error when the
argument is not the index of a recorded child. -/
def Confined (c : Call) (arg : Option Word) (n : Word) : Prop :=
  ∀ k k', argint k 0 = some arg → k.allChildSize = n → SameView k k' →
    ∃ v, c.run k = some v ∧ c.run k' = some v ∧ (¬Recorded arg n → v = -1)

/-- Among 64 entries the signed comparison is the unsigned one. -/
theorem recorded_iff {i n : Word} (hn : n ≤ 64) :
    0 ≤ i.toInt ∧ i.toInt < n.toInt ↔ i < n := by
  have hn' : n.toNat ≤ 64 := hn
  simp only [BitVec.toInt_eq_toNat_cond, BitVec.lt_def]
  omega

/-! ## Kernels with given contents -/

/-- The memory in which the word at each multiple of four is given by a table. -/
def memOf (w : Word → Word) : Mem := fun a =>
  some ((w (BitVec.ofNat 32 (a.toNat / 4 * 4))).extractLsb' (8 * (a.toNat % 4)) 8)

theorem memOf_add (w : Word → Word) {a i : Word} (ha : a.toNat % 4 = 0) (hi : i < 4) :
    memOf w (a + i) = some ((w a).extractLsb' (8 * i.toNat) 8) := by
  have hai : (a + i).toNat = a.toNat + i.toNat := by bv_omega
  have hi' : i.toNat < 4 := by bv_omega
  have hfloor : (a.toNat + i.toNat) / 4 * 4 = a.toNat := by omega
  have hmod : (a.toNat + i.toNat) % 4 = i.toNat := by omega
  simp only [memOf, hai, hfloor, hmod, BitVec.ofNat_toNat, BitVec.setWidth_eq]

/-- A word is the concatenation of its bytes. -/
theorem bytes_append (x : Word) :
    x.extractLsb' 24 8 ++ x.extractLsb' 16 8 ++ x.extractLsb' 8 8 ++ x.extractLsb' 0 8 = x := by
  rw [BitVec.extractLsb'_append_extractLsb'_eq_extractLsb' (by decide),
    BitVec.extractLsb'_append_extractLsb'_eq_extractLsb' (by decide),
    BitVec.extractLsb'_append_extractLsb'_eq_extractLsb' (by decide)]
  simp

theorem readWord_memOf (w : Word → Word) {a : Word} (ha : a.toNat % 4 = 0) :
    readWord (memOf w) a = some (w a) := by
  have h₀ : memOf w a = some ((w a).extractLsb' 0 8) := by
    simpa using memOf_add w ha (i := 0) (by decide)
  simp only [readWord, h₀, memOf_add w ha (i := 1) (by decide),
    memOf_add w ha (i := 2) (by decide), memOf_add w ha (i := 3) (by decide),
    Option.bind_eq_bind, Option.bind_some, pure]
  exact congrArg some (bytes_append (w a))

/-- Where the caller's `struct proc` and its trap frame are in the kernels below. -/
def procAddr : Word := 0x80112000
def tfAddr : Word := 0x8dffffb4

/-- The caller's stack pointer in a kernel that fetches `arg`: near the end of a page of
user memory, or past it. -/
def espOf (arg : Option Word) : Word := if arg.isSome then 0xff0 else 0x1000

/-- The words of a kernel in which one page of user memory holds the argument `arg`,
`allChildSize` is `n` and everything else is `rest`. -/
def wordsOf (arg : Option Word) (n : Word) (rest : Word → Word) (a : Word) : Word :=
  if a = procAddr + ProcField.sz.offset then 0x1000
  else if a = procAddr + ProcField.tf.offset then tfAddr
  else if a = procAddr + ProcField.allChildSize.offset then n
  else if a = tfAddr + espOffset then espOf arg
  else if a = 0xff4 then arg.getD 0
  else rest a

/-- A kernel with those words, whose stack holds `stack` where the local will be. -/
def kernelOf (arg : Option Word) (n : Word) (rest : Word → Word) (stack : Word) : Kernel where
  mem := memOf (wordsOf arg n rest)
  proc := procAddr
  stack := stack
  sz := 0x1000
  tf := tfAddr
  esp := espOf arg
  allChildSize := n
  sz_eq := readWord_memOf _ (by decide)
  tf_eq := readWord_memOf _ (by decide)
  esp_eq := readWord_memOf _ (by decide)
  allChildSize_eq := readWord_memOf _ (by decide)
  sz_le := by decide
  user_mapped := fun _ _ => rfl
  proc_mapped := fun _ _ => rfl

theorem argint_kernelOf (arg : Option Word) (n : Word) (rest : Word → Word) (stack : Word) :
    argint (kernelOf arg n rest stack) 0 = some arg := by
  rw [argint_eq, fetchint_eq]
  cases arg with
  | none => rfl
  | some i =>
    have hread : readWord (kernelOf (some i) n rest stack).mem 0xff4 = some i :=
      readWord_memOf _ (by decide)
    have htest : ¬((0x1000 : Word) ≤ 0xff4 ∨ (0x1000 : Word) < 0xff4 + 4) := by decide
    exact (if_neg htest).trans (congrArg (Option.map some) hread)

/-- Every entry, in the arrays or outside them, is a word of the table. -/
theorem entry_kernelOf (c : Call) (arg : Option Word) (n : Word) (rest : Word → Word)
    (stack i : Word) :
    (kernelOf arg n rest stack).entry c i =
      some (wordsOf arg n rest (procAddr + c.array.offset + 4 * i)) := by
  refine readWord_memOf _ ?_
  have hbase : (procAddr + c.array.offset).toNat % 4 = 0 := by cases c <;> decide
  simp only [kernelOf]
  bv_omega

/-- With no child recorded, kernels whose other words are equal in user memory look
the same. -/
theorem sameView_kernelOf (arg : Option Word) {rest rest' : Word → Word} (stack stack' : Word)
    (hrest : ∀ a, a < 0x1000 → rest' a = rest a) :
    SameView (kernelOf arg 0 rest stack) (kernelOf arg 0 rest' stack') where
  sz := rfl
  esp := rfl
  allChildSize := rfl
  records _ _ hi := absurd hi (by simp [kernelOf])
  user a ha := by
    have hfloor : BitVec.ofNat 32 (a.toNat / 4 * 4) < 0x1000 := by
      have ha' : a.toNat < 4096 := ha
      change (BitVec.ofNat 32 (a.toNat / 4 * 4)).toNat < 4096
      rw [BitVec.toNat_ofNat]
      omega
    simp only [kernelOf, memOf, wordsOf, hrest _ hfloor]

/-! ## The theorem -/

/-- The index of a recorded child gives the entry recorded for it. -/
theorem confined_of_recorded {c : Call} {arg : Option Word} {n : Word} (hn : n ≤ 64)
    (h : Recorded arg n) : Confined c arg n := by
  obtain ⟨i, rfl, hi⟩ := h
  have hin : i < n := (recorded_iff hn).mp hi
  intro k k' harg hsize hview
  obtain ⟨v, hv⟩ := k.entry_mapped c (i := i) (by bv_omega)
  refine ⟨v, ?_, ?_, fun h => absurd ⟨i, rfl, hi⟩ h⟩
  · rw [c.run_eq harg]
    exact hv
  · rw [c.run_eq ((hview.argint_eq 0).trans harg)]
    exact (hview.records c i (hsize ▸ hin)).trans hv

/-- In a kernel with nothing but zeroes besides what the fetch needs, no entry, in the
arrays or outside them, is −1: the word read may be the argument itself, but the
argument −1 selects the word before the array. -/
theorem wordsOf_ne_error (c : Call) {arg : Option Word} {n : Word} (hn : n ≤ 64) {i : Word}
    (hi : ∀ j, arg = some j → i = j) :
    wordsOf arg n (fun _ => 0) (procAddr + c.array.offset + 4 * i) ≠ -1 := by
  unfold wordsOf
  split_ifs with h₁ h₂ h₃ h₄ h₅
  · decide
  · decide
  · bv_omega
  · unfold espOf
    split_ifs <;> decide
  · cases arg with
    | none => decide
    | some j =>
      rintro rfl
      rw [hi _ rfl] at h₅
      revert h₅
      cases c <;> decide
  · exact (by decide : (0 : Word) ≠ -1)

/-- **The child-statistics calls are confined only within the records.**  For any
fetched argument (`none` when `argint` fails), the result of a call is determined by what
the caller may know, and an error outside the records, exactly when the argument is the
index of a recorded child. -/
theorem child_stats_confined (c : Call) (arg : Option Word) (n : Word) (hn : n ≤ 64) :
    Confined c arg n ↔ Recorded arg n := by
  refine ⟨fun hconf => ?_, confined_of_recorded hn⟩
  by_contra hrec
  let k := kernelOf arg n (fun _ => 0) 0
  have harg : argint k 0 = some arg := argint_kernelOf _ _ _ _
  obtain ⟨v, hrun, -, herr⟩ := hconf k k harg rfl (SameView.refl k)
  have hi : ∀ j, arg = some j → arg.getD (c.init k) = j := by
    rintro j rfl
    rfl
  rw [c.run_eq harg, entry_kernelOf] at hrun
  exact wordsOf_ne_error c hn hi ((Option.some.inj hrun).trans (herr hrec))

/-- Index 1 of three recorded children. -/
theorem child_stats_confined_one :
    (3 : Word) ≤ 64 ∧ Confined .getAllChildsRtime (some 1) 3 :=
  ⟨by decide, (child_stats_confined _ _ _ (by decide)).mpr ⟨1, rfl, by decide⟩⟩

/-- **A leak.**  With no child recorded, each call at index 0 returns what an earlier
occupant of the slot left in the array; and `getChildPiorityAt` called with no argument
in user memory returns an entry that the kernel stack selects. -/
theorem child_stats_leak :
    (∀ c : Call, ∃ k k', argint k 0 = some (some 0) ∧ k.allChildSize = 0 ∧ SameView k k' ∧
      c.run k = some 0 ∧ c.run k' = some 7) ∧
    ∃ k k', argint k 0 = some none ∧ SameView k k' ∧
      Call.getChildPiorityAt.run k = some 0 ∧ Call.getChildPiorityAt.run k' = some 7 := by
  refine ⟨fun c => ?_, ?_⟩
  · let left : Word → Word := fun a => if a = procAddr + c.array.offset then 7 else 0
    have hleft : ∀ a, a < 0x1000 → left a = 0 := by
      intro a ha
      have hbase : 0x1000 ≤ procAddr + c.array.offset := by cases c <;> decide
      exact if_neg (by rintro rfl; bv_omega)
    refine ⟨kernelOf (some 0) 0 (fun _ => 0) 0, kernelOf (some 0) 0 left 0,
      argint_kernelOf _ _ _ _, rfl, sameView_kernelOf _ _ _ hleft, ?_, ?_⟩ <;>
    · rw [c.run_eq (argint_kernelOf _ _ _ _), entry_kernelOf]
      cases c <;> decide
  · let old : Word → Word := fun a =>
      if a = procAddr + ProcField.childPiority.offset + 4 then 7 else 0
    refine ⟨kernelOf none 0 old 0, kernelOf none 0 old 1, argint_kernelOf _ _ _ _,
      sameView_kernelOf _ _ _ fun _ _ => rfl, ?_, ?_⟩ <;>
    · rw [Call.run_eq _ (argint_kernelOf _ _ _ _), entry_kernelOf]
      decide

end Xv6.Syscall
