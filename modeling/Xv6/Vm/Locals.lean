import Xv6.Vm.Exec

/-!
# What `exec` finds on the kernel stack

The headers that `exec` reads go to local variables of its.  It goes on with the ELF header unless
`readi` returned less than the size of one, as a comparison of unsigned numbers: the −1 of a
device that cannot be read is more.  Then the header is what an earlier call left on the stack.
With everything else `exec` reads only what it has filled.

## Main definitions

* `IgnoresLocals ip` — what was on the stack makes no difference to `exec` of `ip`.
* `Inode.FailsFirst` — a device whose first read fails.

## Main results

* `loadSegments_congr`, `pushArgs_bind_congr` — the loops of `exec`.
* `exec_locals` — the stack makes a difference just for devices whose first read fails.
-/

namespace Xv6.Vm.Ram

open Prog
open Xv6.Image (slice slice_congr splice_zero)

variable {α : Type} {ip : Inode} {pd : PageDir} {a k n w off sz sp argc : ℕ} {bs : List UInt8}
  {ph ph' : ℕ → UInt8} {ustack ustack' : ℕ → ℕ}

/-! ## Headers -/

/-- What has been filled does not depend on what was there. -/
theorem field_fill_congr (h : a + w ≤ bs.length) :
    field (fill ph (some bs)) a w = field (fill ph' (some bs)) a w := by
  have hsame : slice (fill ph (some bs)) a w = slice (fill ph' (some bs)) a w := by
    refine slice_congr fun x h1 h2 => ?_
    rw [fill, fill, splice_zero (by omega), splice_zero (by omega)]
  rw [field, field, hsame]

/-- A read that fills a buffer of `n` bytes. -/
theorem exists_of_count {r : Option (List UInt8)} (hn : n < 0xffffffff) (hcount : count r = n) :
    ∃ bs, r = some bs ∧ bs.length = n := by
  cases r with
  | none =>
    rw [count] at hcount
    omega
  | some bs => exact ⟨bs, rfl, hcount⟩

/-- **The loop over the program headers** reads `ph` after it has been filled. -/
theorem loadSegments_congr (ip : Inode) (n : ℕ) (pd : PageDir) (sz : ℕ) (ph ph' : ℕ → UInt8)
    (off k : ℕ) : loadSegments ip n pd sz ph off k = loadSegments ip n pd sz ph' off k := by
  induction n generalizing pd sz ph ph' off k with
  | zero => rfl
  | succ n ih =>
    rw [loadSegments, loadSegments]
    dsimp only
    by_cases hcount : count (ip.readi k off phSize) = phSize
    · obtain ⟨bs, hread, hlen⟩ := exists_of_count (by decide) hcount
      have hfield : ∀ a w, a + w ≤ phSize →
          field (fill ph (some bs)) a w = field (fill ph' (some bs)) a w :=
        fun a w h => field_fill_congr (hlen ▸ h)
      have htype : phType (fill ph (some bs)) = phType (fill ph' (some bs)) :=
        hfield 0 4 (by decide)
      have hoff : phOff (fill ph (some bs)) = phOff (fill ph' (some bs)) := hfield 4 4 (by decide)
      have hvaddr : phVaddr (fill ph (some bs)) = phVaddr (fill ph' (some bs)) :=
        hfield 8 4 (by decide)
      have hfilesz : phFilesz (fill ph (some bs)) = phFilesz (fill ph' (some bs)) :=
        hfield 16 4 (by decide)
      have hmemsz : phMemsz (fill ph (some bs)) = phMemsz (fill ph' (some bs)) :=
        hfield 20 4 (by decide)
      rw [hread, htype, hoff, hvaddr, hfilesz, hmemsz]
      generalize fill ph (some bs) = x
      generalize fill ph' (some bs) = y
      simp only [ih _ _ x y]
    · rw [if_pos hcount, if_pos hcount]

/-! ## `ustack` -/

/-- The pointers that have been noted are the same. -/
def SamePointers (ustack ustack' : ℕ → ℕ) (n : ℕ) : Prop :=
  ∀ j < n, ustack (3 + j) = ustack' (3 + j)

theorem SamePointers.setWord (h : SamePointers ustack ustack' n) (w : ℕ) :
    SamePointers (setWord ustack (3 + n) w) (setWord ustack' (3 + n) w) (n + 1) := by
  intro j hj
  simp only [Ram.setWord, Function.update_apply]
  split
  · rfl
  · exact h j (by omega)

/-- **The loop over the arguments** notes a pointer for each. -/
theorem pushArgs_bind_congr {f g : Option (ℕ × ℕ × (ℕ → ℕ)) → RamProg α} (hnone : f none = g none)
    (hsome : ∀ sp argc u u', SamePointers u u' argc →
      f (some (sp, argc, u)) = g (some (sp, argc, u')))
    (argv : List (List UInt8)) (h : SamePointers ustack ustack' argc) :
    (pushArgs pd argv sp argc ustack >>= f) = pushArgs pd argv sp argc ustack' >>= g := by
  induction argv generalizing sp argc ustack ustack' with
  | nil => exact hsome _ _ _ _ h
  | cons arg argv ih =>
    rw [pushArgs, pushArgs]
    split
    · exact hnone
    · dsimp only
      rw [bind_assoc, bind_assoc]
      congr 1
      funext ok
      cases ok with
      | true => exact ih (h.setWord _)
      | false => exact hnone

/-- The vector has no word of `ustack` that has not been set. -/
theorem finish_congr (h : SamePointers ustack ustack' argc) :
    (List.range (3 + argc + 1)).map (finish ustack sp argc) =
      (List.range (3 + argc + 1)).map (finish ustack' sp argc) := by
  refine List.map_congr_left fun j hj => ?_
  have hlt := List.mem_range.mp hj
  simp only [finish, setWord, Function.update_apply]
  split
  · rfl
  split
  · rfl
  split
  · rfl
  split
  · rfl
  · have := h (j - 3) (by omega)
    rwa [show 3 + (j - 3) = j by omega] at this

theorem pushStack_congr (pd : PageDir) (sz : ℕ) (argv : List (List UInt8))
    (ustack ustack' : ℕ → ℕ) : pushStack pd sz argv ustack = pushStack pd sz argv ustack' := by
  refine pushArgs_bind_congr rfl (fun sp argc u u' h => ?_) argv fun j hj =>
    absurd hj (Nat.not_lt_zero j)
  dsimp only
  rw [finish_congr h]

/-! ## `exec` -/

/-- A device that has no read function, or whose first read fails. -/
def Inode.FailsFirst : Inode → Prop
  | .file _ | .dir _ => False
  | .dev none => True
  | .dev (some read) => read 0 elfSize = none

/-- What was on the stack makes no difference. -/
def IgnoresLocals (ip : Inode) : Prop :=
  ∀ (env : Env) (s : State) (proc : Proc) (path : List UInt8) (argv : List (List UInt8))
    (locals locals' : Locals),
    run (handle env) (exec env.layout proc path (some ip) argv locals) s =
      run (handle env) (exec env.layout proc path (some ip) argv locals') s

theorem readi_eq_none : ip.readi 0 0 elfSize = none ↔ ip.FailsFirst := by
  cases ip with
  | file c => simp [Inode.readi, Inode.FailsFirst, elfSize, WORD]
  | dir c => simp [Inode.readi, Inode.FailsFirst, elfSize, WORD]
  | dev read =>
    cases read with
    | none => simp [Inode.readi, Inode.FailsFirst]
    | some read => simp [Inode.readi, Inode.FailsFirst]

theorem execInto_congr {elf elf' : ℕ → UInt8} (hphnum : elfPhnum elf = elfPhnum elf')
    (hphoff : elfPhoff elf = elfPhoff elf') (hentry : elfEntry elf = elfEntry elf') (proc : Proc)
    (path : List UInt8) (ip : Inode) (argv : List (List UInt8)) (locals locals' : Locals)
    (pd : PageDir) :
    execInto proc path ip argv elf locals pd = execInto proc path ip argv elf' locals' pd := by
  rw [execInto, execInto, hphnum, hphoff, hentry, loadSegments_congr ip _ pd 0 locals.ph locals'.ph]
  simp only [pushStack_congr _ _ argv locals.ustack locals'.ustack]

/-- When the first read does not fail, the program does not depend on the stack. -/
theorem exec_congr (hip : ¬ip.FailsFirst) (layout : Layout) (proc : Proc) (path : List UInt8)
    (argv : List (List UInt8)) (locals locals' : Locals) :
    exec layout proc path (some ip) argv locals = exec layout proc path (some ip) argv locals' := by
  rw [← readi_eq_none] at hip
  obtain ⟨bs, hread⟩ := Option.ne_none_iff_exists'.mp hip
  rw [exec, exec, hread]
  by_cases hshort : count (some bs) < elfSize
  · rw [if_pos hshort, if_pos hshort]
  · rw [if_neg hshort, if_neg hshort]
    have hfield : ∀ a w, a + w ≤ elfSize →
        field (fill locals.elf (some bs)) a w = field (fill locals'.elf (some bs)) a w :=
      fun a w h => field_fill_congr (h.trans (Nat.le_of_not_lt hshort))
    have hmagic : elfMagic (fill locals.elf (some bs)) = elfMagic (fill locals'.elf (some bs)) :=
      hfield 0 4 (by decide)
    rw [hmagic]
    simp only [execInto_congr (hfield 44 2 (by decide)) (hfield 28 4 (by decide))
      (hfield 24 4 (by decide)) proc path ip argv locals locals']

/-! ## A device that cannot be read -/

/-- A frame in which an earlier `exec` has left an ELF header. -/
def staleLocals : Locals := ⟨headerAt tinyElf 0, fun _ => 0, fun _ => 0⟩

/-- With a blank frame, `exec` of a device whose first read fails gives up. -/
theorem exec_blank (hip : ip.FailsFirst) : run (handle smallRam)
    (exec smallRam.layout oneProc [] (some ip) [] blankLocals) roomyRam =
      .ok ((false, oneProc), roomyRam) := by
  rw [exec, readi_eq_none.mpr hip, if_neg (by decide), if_pos (by decide)]
  rfl

/-- With an old header in the frame, it makes a process of it. -/
theorem exec_stale (hip : ip.FailsFirst) : ∃ proc t, run (handle smallRam)
    (exec smallRam.layout oneProc [] (some ip) [] staleLocals) roomyRam =
      .ok ((true, proc), t) := by
  have hok : wp (handle smallRam) (fun _ => False)
      (exec smallRam.layout oneProc [] (some ip) [] staleLocals) (fun r _ => r.1 = true)
      roomyRam := by
    refine exec_ok oneProc_sole roomyRam_plenty ?_ ?_ ?_ []
    · rw [readi_eq_none.mpr hip]
      decide
    · rw [readi_eq_none.mpr hip]
      decide
    · rw [readi_eq_none.mpr hip]
      decide
  cases hrun : run (handle smallRam) (exec smallRam.layout oneProc [] (some ip) [] staleLocals)
      roomyRam with
  | error e => exact (hok.of_error hrun).elim
  | ok r =>
    obtain ⟨⟨b, proc⟩, t⟩ := r
    obtain rfl : b = true := hok.of_ok hrun
    exact ⟨proc, t, rfl⟩

/-- **`exec` depends only on the file** exactly when that is not a device whose first read
fails. -/
theorem exec_locals (ip : Inode) : IgnoresLocals ip ↔ ¬ip.FailsFirst := by
  constructor
  · intro h hip
    obtain ⟨proc, t, hrun⟩ := exec_stale hip
    have hsame := h smallRam roomyRam oneProc [] [] blankLocals staleLocals
    rw [exec_blank hip, hrun] at hsame
    cases hsame
  · intro hip env s proc path argv locals locals'
    rw [exec_congr hip]

/-- `exec` of a device without a read function returns −1 or 0, as the stack has it. -/
theorem exec_device_stale : (∃ proc t, run (handle smallRam)
      (exec smallRam.layout oneProc [] (some (.dev none)) [] staleLocals) roomyRam =
        .ok ((true, proc), t)) ∧
    run (handle smallRam) (exec smallRam.layout oneProc [] (some (.dev none)) [] blankLocals)
      roomyRam = .ok ((false, oneProc), roomyRam) :=
  ⟨exec_stale trivial, exec_blank trivial⟩

end Xv6.Vm.Ram
