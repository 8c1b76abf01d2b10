import Mathlib.Logic.Function.Basic
import Mathlib.Data.List.Induction
import Mathlib.Tactic.Common

/-!
# Redo logs on a block device

A redo log keeps a header block and a row of slots beside the home blocks.  A
header that lists targets says that the slots hold their new contents; clearing
it says that they have been copied home.  The modules that use this one supply
the layout and the header's decoder; nothing here depends on how blocks look.

`Pending L ts d img t` is the one invariant: disk `d` carries the targets `ts` in
its header, and the home blocks of `img` except for those of targets from the
`t`-th on, which are still only in the slots.  `Recoverable` forgets how far the
copying got, so it is what a crash keeps.

## Main definitions

* `Layout α β` — header, slots, home addresses and the header's decoder.
* `applyUpds us d` — the writes `us` in order.
* `Pending`, `Recoverable` — a disk from which `img` can be restored.
-/

namespace Xv6.RedoLog

open Function

variable {α β : Type*}

/-- Where the header, the slots and the home blocks are, and how a header block
lists its targets. -/
structure Layout (α β : Type*) where
  head : α
  slot : ℕ → α
  Home : α → Prop
  decode : β → List α
  slot_injective : Function.Injective slot
  slot_ne_head : ∀ i, slot i ≠ head
  head_not_home : ¬ Home head

/-- Disk `d` restores to `img` once the targets `ts` of its header, from the
`t`-th on, have been copied from their slots. -/
structure Pending (L : Layout α β) (ts : List α) (d img : α → β) (t : ℕ) : Prop where
  header : L.decode (d L.head) = ts
  targets : ∀ b ∈ ts, L.Home b
  off_slots : ∀ b, L.Home b → ∀ i < ts.length, L.slot i ≠ b
  slots : ∀ i (h : i < ts.length), d (L.slot i) = img ts[i]
  others : ∀ b, L.Home b → b ∉ ts.drop t → d b = img b

/-- Some header on disk `d` restores it to `img`. -/
def Recoverable (L : Layout α β) (d img : α → β) : Prop := ∃ ts, Pending L ts d img 0

variable {L : Layout α β} {ts : List α} {d img : α → β} {t : ℕ}

theorem Layout.ne_head {b : α} (hb : L.Home b) : b ≠ L.head := by
  rintro rfl
  exact L.head_not_home hb

/-- What is already home stays acceptable to a copy that starts again. -/
theorem Pending.restart (h : Pending L ts d img t) : Pending L ts d img 0 where
  header := h.header
  targets := h.targets
  off_slots := h.off_slots
  slots := h.slots
  others b hb hmem := h.others b hb fun hd => hmem (by
    rw [List.drop_zero]
    exact List.mem_of_mem_drop hd)

theorem Pending.recoverable (h : Pending L ts d img t) : Recoverable L d img :=
  ⟨ts, h.restart⟩

/-- Once every target is copied, the home blocks are those of the image. -/
theorem Pending.home_eq (h : Pending L ts d img t) (ht : ts.length ≤ t) {b : α}
    (hb : L.Home b) : d b = img b :=
  h.others b hb (by rw [List.drop_eq_nil_of_le ht]; exact List.not_mem_nil)

/-- An empty header over the image itself. -/
theorem pending_nil (hd : L.decode (d L.head) = []) (hi : ∀ b, L.Home b → d b = img b) :
    Pending L [] d img t where
  header := hd
  targets := by simp
  off_slots := by simp
  slots := by simp
  others b hb _ := hi b hb

section Writes

variable [DecidableEq α]

/-- The writes in order, later ones over earlier ones. -/
def applyUpds (us : List (α × β)) (d : α → β) : α → β :=
  us.foldl (fun d u => update d u.1 u.2) d

@[simp] theorem applyUpds_nil (d : α → β) : applyUpds [] d = d := rfl

theorem applyUpds_append (us vs : List (α × β)) (d : α → β) :
    applyUpds (us ++ vs) d = applyUpds vs (applyUpds us d) := List.foldl_append

@[simp] theorem applyUpds_concat (us : List (α × β)) (u : α × β) (d : α → β) :
    applyUpds (us ++ [u]) d = update (applyUpds us d) u.1 u.2 := by
  rw [applyUpds_append]; rfl

/-- A block that no write names keeps its contents. -/
theorem applyUpds_of_notMem {us : List (α × β)} {b : α} (d : α → β)
    (hb : b ∉ us.map Prod.fst) : applyUpds us d b = d b := by
  induction us using List.reverseRecOn with
  | nil => rfl
  | append_singleton us u ih =>
    rw [List.map_append, List.mem_append, not_or] at hb
    have hne : b ≠ u.1 := by simpa using hb.2
    rw [applyUpds_concat, update_of_ne hne, ih hb.1]

/-- Copying the next target home makes progress and keeps everything else. -/
theorem Pending.install (h : Pending L ts d img t) (ht : t < ts.length) :
    Pending L ts (update d ts[t] (d (L.slot t))) img (t + 1) where
  header := by
    rw [update_of_ne (Layout.ne_head (h.targets _ (List.getElem_mem ht))).symm]
    exact h.header
  targets := h.targets
  off_slots := h.off_slots
  slots i hi := by
    have hne : L.slot i ≠ ts[t] := h.off_slots _ (h.targets _ (List.getElem_mem ht)) i hi
    rw [update_of_ne hne, h.slots i hi]
  others b hb hmem := by
    by_cases he : b = ts[t]
    · rw [he, update_self, h.slots t ht]
    · rw [update_of_ne he]
      refine h.others b hb fun hd => hmem ?_
      rw [List.drop_eq_getElem_cons ht, List.mem_cons] at hd
      exact hd.resolve_left he

/-- Writing a slot under an empty header touches no home block. -/
theorem Pending.write_slot (h : Pending L [] d img t) {i : ℕ} (v : β)
    (hs : ¬ L.Home (L.slot i)) : Pending L [] (update d (L.slot i) v) img t :=
  pending_nil (by rw [update_of_ne (L.slot_ne_head i).symm]; exact h.header) <| by
    intro b hb
    have hne : b ≠ L.slot i := by
      rintro rfl
      exact hs hb
    rw [update_of_ne hne]
    exact h.home_eq (Nat.zero_le _) hb

/-- **The commit point.**  Writing a header whose targets have their new contents
in the slots moves the disk from one image to the next in a single write. -/
theorem Pending.commit {img' : α → β} (h : Pending L [] d img t) {v : β}
    (hv : L.decode v = ts) (hts : ∀ b ∈ ts, L.Home b)
    (hoff : ∀ b, L.Home b → ∀ i < ts.length, L.slot i ≠ b)
    (hslots : ∀ i (hi : i < ts.length), d (L.slot i) = img' ts[i])
    (hsame : ∀ b, L.Home b → b ∉ ts → img' b = img b) :
    Pending L ts (update d L.head v) img' 0 where
  header := by rw [update_self, hv]
  targets := hts
  off_slots := hoff
  slots i hi := by rw [update_of_ne (L.slot_ne_head i), hslots i hi]
  others b hb hmem := by
    rw [update_of_ne (Layout.ne_head hb), h.home_eq (Nat.zero_le _) hb,
      hsame b hb (by rwa [List.drop_zero] at hmem)]

/-- Clearing the header once every target is home. -/
theorem Pending.clear (h : Pending L ts d img t) (ht : ts.length ≤ t) {v : β}
    (hv : L.decode v = []) : Pending L [] (update d L.head v) img 0 :=
  pending_nil (by rw [update_self, hv]) <| by
    intro b hb
    rw [update_of_ne (Layout.ne_head hb), h.home_eq ht hb]

end Writes

end Xv6.RedoLog
