import Xv6.Grep.Match
import Xv6.Lib.CString
import Xv6.Lib.Image
import Xv6.Lib.Lines
import Xv6.Lib.Machine

/-!
# The line buffer of grep

`grep` reads as much as there is room for in a buffer, writes the lines in it that match, and moves
what is left to the beginning.  When it finds no line at all, it drops what it has read.

## Main definitions

* `strchr`, `grepLines`, `grepRead` — the loops of `grep`.
* `selected` — the lines of a text that match.
* `Whole` — no read that brings no newline is followed by one that does.

## Main results

* `grepLines_spec` — the inner loop writes the lines that match, and stops behind the last.
* `exec_emit` — the reads, on the bytes that are carried over.
* `grep_output_iff` — the output does not depend on the reads exactly when they are whole.
-/

namespace Xv6.Grep

open Function CString Image Lines Machine

/-- `sizeof(buf)` -/
def BUFSIZE : ℕ := 1024

def newline : UInt8 := '\n'.toUInt8

/-! ## The program -/

/-- The loop of `strchr`, at `s` with `n` bytes of the buffer to go. -/
def strchr (buf : ℕ → UInt8) (c : UInt8) : ℕ → ℕ → Option ℕ
  | 0, _ => none
  | n + 1, s => if buf s = 0 then none else if buf s = c then some s else strchr buf c n (s + 1)

/-- The string at `s`, with `n` bytes of the buffer to go. -/
def stringAt (buf : ℕ → UInt8) : ℕ → ℕ → List UInt8
  | 0, _ => []
  | n + 1, s => if buf s = 0 then [] else buf s :: stringAt buf n (s + 1)

/-- The buffer, the pointer `p` into it, and what has been written. -/
structure Scan where
  buf : ℕ → UInt8
  p : ℕ
  out : List UInt8

/-- The inner loop of `grep`; every line takes up a byte of the buffer. -/
def grepLines (pattern : List UInt8) : ℕ → Scan → Scan
  | 0, s => s
  | n + 1, s =>
    match strchr s.buf newline (BUFSIZE - s.p) s.p with
    | none => s
    | some q =>
      let buf := update s.buf q 0
      if isMatch pattern (stringAt buf (BUFSIZE - s.p) s.p) then
        let buf := update buf q newline
        grepLines pattern n ⟨buf, q + 1, s.out ++ slice buf s.p (q + 1 - s.p)⟩
      else grepLines pattern n ⟨buf, q + 1, s.out⟩

/-- The buffer, the number of bytes carried over, and what has been written. -/
structure State where
  buf : ℕ → UInt8
  m : ℕ
  out : List UInt8

/-- The outer loop of `grep`, for a read that returned these bytes. -/
def grepRead (pattern : List UInt8) (s : State) (piece : List UInt8) : State :=
  let m := s.m + piece.length
  let buf := update (splice s.buf s.m piece) m 0
  let r := grepLines pattern BUFSIZE ⟨buf, 0, s.out⟩
  let m := if r.p = 0 then 0 else m
  if 0 < m then ⟨splice r.buf 0 (slice r.buf r.p (m - r.p)), m - r.p, r.out⟩
  else ⟨r.buf, m, r.out⟩

/-- A read returns some bytes, and no more than `grep` asks for. -/
def step (pattern : List UInt8) (s : State) (piece : List UInt8) : Option State :=
  if piece ≠ [] ∧ piece.length ≤ BUFSIZE - s.m - 1 then some (grepRead pattern s piece) else none

/-- What `grep` writes when its reads return these pieces, one after the other, and then nothing;
`none` when `read` cannot return them.  The buffer may be in use from another file. -/
def grep (pattern : List UInt8) (buf : ℕ → UInt8) (pieces : List (List UInt8)) :
    Option (List UInt8) :=
  (exec (step pattern) ⟨buf, 0, []⟩ pieces).map State.out

/-! ## What it is for -/

/-- The lines of a text that match, each with its newline. -/
def selected (pattern text : List UInt8) : List UInt8 :=
  ((lines newline text).filter (isMatch pattern)).flatMap fun l => l ++ [newline]

/-- No piece without a newline is followed by one with a newline. -/
def Whole (pieces : List (List UInt8)) : Prop :=
  pieces.Pairwise fun a b => newline ∈ b → newline ∈ a

instance (pieces : List (List UInt8)) : Decidable (Whole pieces) :=
  inferInstanceAs (Decidable (pieces.Pairwise _))

/-- What is written when `carry` has been carried over. -/
def emit (pattern : List UInt8) : List UInt8 → List (List UInt8) → List UInt8
  | _, [] => []
  | carry, piece :: pieces =>
    selected pattern (carry ++ piece) ++
      emit pattern (if newline ∈ piece then rest newline (carry ++ piece) else []) pieces

/-! ## The inner loop -/

variable {pattern text carry l : List UInt8} {buf : ℕ → UInt8} {n p : ℕ}
  {pieces : List (List UInt8)} {s t : State}

theorem strchr_eq_some (h : IsString 0 buf p (l ++ newline :: text)) (hl : newline ∉ l)
    (hn : l.length < n) : strchr buf newline n p = some (p + l.length) := by
  induction l generalizing n p with
  | nil =>
    obtain ⟨n, rfl⟩ := Nat.exists_eq_add_of_lt hn
    have hp : buf p = newline := h.1
    simp [strchr, hp, show newline ≠ 0 by decide]
  | cons c l ih =>
    rw [List.mem_cons, not_or] at hl
    obtain ⟨n, rfl⟩ := Nat.exists_eq_add_of_lt hn
    rw [List.length_cons, show l.length + 1 + n + 1 = l.length + n + 1 + 1 by omega, strchr, h.1,
      if_neg h.2.1, if_neg (Ne.symm hl.1), ih h.2.2 hl.2 (by omega)]
    congr 1
    omega

theorem strchr_eq_none (h : IsString 0 buf p text) (ht : newline ∉ text) :
    strchr buf newline n p = none := by
  induction n generalizing p text with
  | zero => rfl
  | succ n ih =>
    cases text with
    | nil => exact if_pos h
    | cons c text =>
      rw [List.mem_cons, not_or] at ht
      rw [strchr, h.1, if_neg h.2.1, if_neg (Ne.symm ht.1), ih h.2.2 ht.2]

theorem stringAt_eq (h : IsString 0 buf p text) (hn : text.length ≤ n) :
    stringAt buf (n + 1) p = text := by
  induction text generalizing n p with
  | nil => exact if_pos h
  | cons c text ih =>
    obtain ⟨n, rfl⟩ : ∃ k, n = k + 1 := ⟨n - 1, by rw [List.length_cons] at hn; omega⟩
    rw [stringAt, h.1, if_neg h.2.1, ih h.2.2 (by rw [List.length_cons] at hn; omega)]

theorem slice_of_isString {a b : List UInt8} (h : IsString 0 buf p (a ++ b)) :
    slice buf p a.length = a := by
  refine List.ext_getElem (length_slice ..) fun i hi hi' => ?_
  have hget := h.getElem (i := i) (by rw [List.length_append]; omega)
  rw [List.getElem_append_left hi'] at hget
  simp [slice, hget]

theorem selected_line (hl : newline ∉ l) : selected pattern (l ++ newline :: text) =
    (if isMatch pattern l then l ++ [newline] else []) ++ selected pattern text := by
  rw [selected, lines_line hl, List.filter_cons]
  split
  · rw [List.flatMap_cons]
    rfl
  · rfl

/-- **The inner loop**, on a text that is in the buffer: it writes the lines that match, and stops
behind the last one, where the rest of the text is. -/
theorem grepLines_spec (pattern out : List UInt8) (h : IsString 0 buf p text)
    (hp : p + text.length < BUFSIZE) (hn : text.length ≤ n) :
    ∃ buf', grepLines pattern n ⟨buf, p, out⟩ =
        ⟨buf', p + text.length - (rest newline text).length, out ++ selected pattern text⟩ ∧
      IsString 0 buf' (p + text.length - (rest newline text).length) (rest newline text) := by
  induction text using line_induction newline generalizing buf p n out with
  | none text ht =>
    have hstop : grepLines pattern n ⟨buf, p, out⟩ = ⟨buf, p, out⟩ := by
      cases n with
      | zero => rfl
      | succ n => rw [grepLines, strchr_eq_none h ht]
    rw [rest_eq_self ht, selected, lines_eq_nil ht, Nat.add_sub_cancel]
    refine ⟨buf, ?_, h⟩
    rw [hstop]
    simp
  | line l text hl ih =>
    simp only [List.length_append, List.length_cons] at hp hn ⊢
    obtain ⟨n, rfl⟩ : ∃ k, n = k + 1 := ⟨n - 1, by omega⟩
    have hfind : strchr buf newline (BUFSIZE - p) p = some (p + l.length) :=
      strchr_eq_some h hl (by omega)
    have hline : stringAt (update buf (p + l.length) 0) (BUFSIZE - p) p = l := by
      rw [show BUFSIZE - p = BUFSIZE - p - 1 + 1 by omega]
      exact stringAt_eq h.cut (by omega)
    have hnl := h.drop.1
    have htext : IsString 0 buf (p + l.length + 1) text := h.drop.2.2
    have htext' : IsString 0 (update buf (p + l.length) 0) (p + l.length + 1) text :=
      htext.congr fun x hx _ => update_of_ne (by omega) ..
    have hrestored : update (update buf (p + l.length) 0) (p + l.length)
        newline = buf := by
      rw [update_idem, ← hnl, update_eq_self]
    have hslice : slice buf p (p + l.length + 1 - p) = l ++ [newline] := by
      rw [show p + l.length + 1 - p = (l ++ [newline]).length by simp; omega]
      refine slice_of_isString (b := text) ?_
      rwa [List.append_assoc]
    rw [grepLines, hfind]
    dsimp only
    rw [hline, hrestored, hslice, rest_line, selected_line hl,
      show p + (l.length + (text.length + 1)) = p + l.length + 1 + text.length by omega]
    by_cases hmatch : isMatch pattern l = true
    · rw [if_pos hmatch, if_pos hmatch, ← List.append_assoc out (l ++ [newline])]
      exact ih _ htext (by omega) (by omega)
    · rw [if_neg hmatch, if_neg hmatch, List.nil_append]
      exact ih _ htext' (by omega) (by omega)

/-! ## The reads -/

theorem isString_of_slice (hnul : 0 ∉ text) (h : slice buf p text.length = text)
    (hend : buf (p + text.length) = 0) : IsString 0 buf p text := by
  refine .of_getElem hnul (fun i hi => ?_) hend
  have hget : (slice buf p text.length)[i]? = some (buf (p + i)) := getElem?_slice hi
  rw [h, List.getElem?_eq_getElem hi] at hget
  exact (Option.some.inj hget).symm

theorem length_rest_lt (h : newline ∈ text) : (rest newline text).length < text.length := by
  obtain ⟨l, t, rfl, -⟩ := List.eq_append_cons_of_mem h
  have hlen := congrArg List.length (lines_rest newline t)
  rw [List.length_append] at hlen
  rw [rest_line, List.length_append, List.length_cons]
  omega

theorem not_mem_of_rest (h : 0 ∉ text) : 0 ∉ rest newline text := by
  intro hmem
  rw [← lines_rest newline text, List.mem_append, not_or] at h
  exact h.2 hmem

/-- The bytes carried over are in the buffer, and leave room for one more and for the NUL. -/
structure Carried (s : State) (carry : List UInt8) : Prop where
  m : s.m = carry.length
  bytes : slice s.buf 0 s.m = carry
  line : newline ∉ carry
  nul : 0 ∉ carry
  room : carry.length + 1 < BUFSIZE

/-- The buffer after a read: what was carried over, what was read, and a NUL. -/
theorem Carried.isString {piece : List UInt8} (h : Carried s carry) (hnul : 0 ∉ piece) :
    IsString 0 (update (splice s.buf s.m piece) (s.m + piece.length) 0) 0
      (carry ++ piece) := by
  have hbytes : slice (splice s.buf s.m piece) 0 (s.m + piece.length) = carry ++ piece := by
    rw [slice_append, Nat.zero_add, slice_splice_same,
      slice_splice_of_disjoint (.inl (by omega)), h.bytes]
  have hlen : (carry ++ piece).length = s.m + piece.length := by rw [List.length_append, h.m]
  refine isString_of_slice ?_ ?_ ?_
  · rw [List.mem_append, not_or]
    exact ⟨h.nul, hnul⟩
  · rw [hlen, ← hbytes]
    exact slice_congr fun x _ hx => update_of_ne (by omega) ..
  · rw [hlen, Nat.zero_add]
    exact update_self ..

/-- **One read.** -/
theorem Carried.step {piece : List UInt8} (h : Carried s carry) (hnul : 0 ∉ piece)
    (hst : step pattern s piece = some t) :
    t.out = s.out ++ selected pattern (carry ++ piece) ∧
      Carried t (if newline ∈ piece then rest newline (carry ++ piece) else []) := by
  rw [Grep.step] at hst
  split at hst
  · rename_i hpiece
    obtain ⟨hne, hlen⟩ := hpiece
    have hroom := h.room
    have hm := h.m
    have htext : (carry ++ piece).length = s.m + piece.length := by rw [List.length_append, hm]
    have hpos : 0 < piece.length := List.length_pos_iff.mpr hne
    obtain ⟨buf', hscan, hrest⟩ := grepLines_spec (n := BUFSIZE) pattern s.out (h.isString hnul)
      (by omega) (by omega)
    cases hst
    simp only [grepRead, hscan, Nat.zero_add] at hrest ⊢
    by_cases hnl : newline ∈ piece
    · have hlt := length_rest_lt (List.mem_append_right carry hnl)
      have hslice : slice buf' ((carry ++ piece).length - (rest newline (carry ++ piece)).length)
          (rest newline (carry ++ piece)).length = rest newline (carry ++ piece) :=
        slice_of_isString (b := []) (by rwa [List.append_nil])
      have hm' : s.m + piece.length -
          ((carry ++ piece).length - (rest newline (carry ++ piece)).length) =
            (rest newline (carry ++ piece)).length := by omega
      have hp : ¬(carry ++ piece).length - (rest newline (carry ++ piece)).length = 0 := by omega
      have hm0 : 0 < s.m + piece.length := by omega
      rw [if_neg hp, if_pos hm0, if_pos hnl, hm', hslice]
      refine ⟨rfl, rfl, slice_splice_same .., not_mem_rest _, not_mem_of_rest ?_, by omega⟩
      rw [List.mem_append, not_or]
      exact ⟨h.nul, hnul⟩
    · have hno : newline ∉ carry ++ piece := by
        rw [List.mem_append, not_or]
        exact ⟨h.line, hnl⟩
      rw [rest_eq_self hno, Nat.sub_self, if_pos rfl, if_neg (Nat.lt_irrefl 0), if_neg hnl]
      exact ⟨rfl, rfl, rfl, List.not_mem_nil, List.not_mem_nil, by decide⟩
  · cases hst

/-- **The reads**, on the bytes that are carried over. -/
theorem exec_emit (h : Carried s carry) (hnul : ∀ piece ∈ pieces, 0 ∉ piece)
    (hrun : exec (step pattern) s pieces = some t) :
    t.out = s.out ++ emit pattern carry pieces := by
  induction pieces generalizing s carry with
  | nil =>
    rw [exec_nil, Option.some.injEq] at hrun
    rw [← hrun, emit, List.append_nil]
  | cons piece pieces ih =>
    obtain ⟨u, hst, hrest⟩ := exec_cons_eq_some.mp hrun
    obtain ⟨hout, hu⟩ := h.step (hnul piece List.mem_cons_self) hst
    rw [ih hu (fun q hq => hnul q (List.mem_cons_of_mem _ hq)) hrest, hout, emit,
      List.append_assoc]

/-! ## Whole reads -/

theorem selected_append (pattern a b : List UInt8) :
    selected pattern (a ++ b) = selected pattern a ++ selected pattern (rest newline a ++ b) := by
  rw [selected, lines_append, List.filter_append, List.flatMap_append]
  rfl

theorem selected_eq_nil (h : newline ∉ text) : selected pattern text = [] := by
  rw [selected, lines_eq_nil h]
  rfl

theorem emit_eq_nil (hc : newline ∉ carry) (h : ∀ piece ∈ pieces, newline ∉ piece) :
    emit pattern carry pieces = [] := by
  induction pieces generalizing carry with
  | nil => rfl
  | cons piece pieces ih =>
    have hp := h piece List.mem_cons_self
    have hno : newline ∉ carry ++ piece := by
      rw [List.mem_append, not_or]
      exact ⟨hc, hp⟩
    rw [emit, selected_eq_nil hno, if_neg hp, List.nil_append]
    exact ih List.not_mem_nil fun q hq => h q (List.mem_cons_of_mem _ hq)

/-- Whole reads lose nothing. -/
theorem emit_of_whole (hc : newline ∉ carry) (h : Whole pieces) :
    emit pattern carry pieces = selected pattern (carry ++ pieces.flatten) := by
  induction pieces generalizing carry with
  | nil => rw [emit, List.flatten_nil, List.append_nil, selected_eq_nil hc]
  | cons piece pieces ih =>
    obtain ⟨hfirst, hrest⟩ := List.pairwise_cons.mp h
    rw [emit, List.flatten_cons, ← List.append_assoc,
      selected_append pattern (carry ++ piece) pieces.flatten]
    by_cases hp : newline ∈ piece
    · rw [if_pos hp, ih (not_mem_rest _) hrest]
    · have hlater : ∀ q ∈ pieces, newline ∉ q := fun q hq hn => hp (hfirst q hq hn)
      have hno : newline ∉ carry ++ piece := by
        rw [List.mem_append, not_or]
        exact ⟨hc, hp⟩
      have hall : newline ∉ carry ++ piece ++ pieces.flatten := by
        rw [List.mem_append, not_or]
        refine ⟨hno, fun hn => ?_⟩
        obtain ⟨q, hq, hnq⟩ := List.mem_flatten.mp hn
        exact hlater q hq hnq
      rw [if_neg hp, emit_eq_nil List.not_mem_nil hlater, rest_eq_self hno, selected_eq_nil hno,
        selected_eq_nil hall]

/-- The empty pattern selects every line. -/
theorem length_selected_nil (text : List UInt8) :
    (selected [] text).length + (rest newline text).length = text.length := by
  have hall : (lines newline text).filter (isMatch []) = lines newline text :=
    List.filter_eq_self.mpr fun l _ => by cases l <;> rfl
  have hlen := congrArg List.length (lines_rest newline text)
  rw [List.length_append] at hlen
  rw [selected, hall]
  exact hlen

theorem rest_append_of_mem {a b : List UInt8} (h : newline ∈ b) :
    rest newline (a ++ b) = rest newline b := by
  obtain ⟨l, t, rfl, -⟩ := List.eq_append_cons_of_mem h
  rw [← List.append_assoc, rest_line, rest_line]

/-- With the empty pattern, reads that are not whole lose bytes. -/
theorem length_emit_lt (hc : newline ∉ carry) (hne : ∀ piece ∈ pieces, piece ≠ [])
    (h : ¬Whole pieces) :
    (emit [] carry pieces).length < (selected [] (carry ++ pieces.flatten)).length := by
  induction pieces generalizing carry with
  | nil => exact absurd List.Pairwise.nil h
  | cons piece pieces ih =>
    have hne' : ∀ q ∈ pieces, q ≠ [] := fun q hq => hne q (List.mem_cons_of_mem _ hq)
    rw [emit, List.flatten_cons, ← List.append_assoc]
    by_cases hp : newline ∈ piece
    · have hrest : ¬Whole pieces := fun hw =>
        h (List.pairwise_cons.mpr ⟨fun _ _ _ => hp, hw⟩)
      rw [if_pos hp, selected_append [] (carry ++ piece) pieces.flatten, List.length_append,
        List.length_append]
      exact Nat.add_lt_add_left (ih (not_mem_rest _) hne' hrest) _
    · have hno : newline ∉ carry ++ piece := by
        rw [List.mem_append, not_or]
        exact ⟨hc, hp⟩
      -- What has been read so far is dropped, although a newline is still to come.
      have hlater : newline ∈ pieces.flatten := by
        by_contra hnone
        refine h (List.pairwise_cons.mpr ⟨fun q hq hn => ?_, ?_⟩)
        · exact absurd (List.mem_flatten.mpr ⟨q, hq, hn⟩) hnone
        · exact List.pairwise_of_forall_mem_list fun a _ b hb hn =>
            absurd (List.mem_flatten.mpr ⟨b, hb, hn⟩) hnone
      have hle : (emit [] [] pieces).length ≤ (selected [] pieces.flatten).length := by
        by_cases hw : Whole pieces
        · rw [emit_of_whole List.not_mem_nil hw, List.nil_append]
        · exact (ih List.not_mem_nil hne' hw).le
      have hall := length_selected_nil (carry ++ piece ++ pieces.flatten)
      have hpart := length_selected_nil pieces.flatten
      have hpos := List.length_pos_iff.mpr (hne piece List.mem_cons_self)
      rw [rest_append_of_mem hlater, List.length_append, List.length_append] at hall
      rw [if_neg hp, selected_eq_nil hno, List.nil_append]
      omega

theorem carried_init (buf : ℕ → UInt8) : Carried ⟨buf, 0, []⟩ [] :=
  ⟨rfl, rfl, List.not_mem_nil, List.not_mem_nil, by decide⟩

theorem ne_nil_of_exec (hrun : exec (step pattern) s pieces = some t) :
    ∀ piece ∈ pieces, piece ≠ [] := by
  induction pieces generalizing s with
  | nil => exact fun _ h => absurd h List.not_mem_nil
  | cons piece pieces ih =>
    obtain ⟨u, hst, hrest⟩ := exec_cons_eq_some.mp hrun
    intro q hq
    rcases List.mem_cons.mp hq with rfl | hq
    · rw [step] at hst
      split at hst
      · rename_i hpiece
        exact hpiece.1
      · cases hst
    · exact ih hrest q hq

/-- **Read boundaries.**  Let the reads of a text without NULs return these pieces, and let the
buffer hold anything.  Then `grep` writes the lines that match, for every pattern, exactly when no
piece without a newline is followed by one with a newline. -/
theorem grep_output_iff (hnul : ∀ piece ∈ pieces, 0 ∉ piece)
    (hreads : ∀ pattern, grep pattern buf pieces ≠ none) :
    (∀ pattern, grep pattern buf pieces = some (selected pattern pieces.flatten)) ↔
      Whole pieces := by
  have hrun : ∀ pattern, ∃ t, exec (step pattern) ⟨buf, 0, []⟩ pieces = some t := by
    intro pattern
    refine Option.ne_none_iff_exists'.mp fun hnone => hreads pattern ?_
    rw [grep, hnone]
    rfl
  have hout : ∀ pattern, grep pattern buf pieces = some (emit pattern [] pieces) := by
    intro pattern
    obtain ⟨t, ht⟩ := hrun pattern
    rw [grep, ht, Option.map_some, exec_emit (carried_init buf) hnul ht]
    rfl
  constructor
  · intro h
    by_contra hw
    obtain ⟨t, ht⟩ := hrun []
    have hlt := length_emit_lt List.not_mem_nil (ne_nil_of_exec ht) hw
    have heq := Option.some.inj ((hout []).symm.trans (h []))
    rw [heq, List.nil_append] at hlt
    exact lt_irrefl _ hlt
  · intro hw pattern
    rw [hout pattern, emit_of_whole List.not_mem_nil hw, List.nil_append]

/-- A text in two pieces, the first one with a newline. -/
theorem grep_output_iff_two : grep [98] (fun _ => 0) [[97, 10, 98], [99, 10]] =
    some (selected [98] [97, 10, 98, 99, 10]) := by
  refine (grep_output_iff (by decide) fun pattern => ?_).mpr (by decide) [98]
  have h₁ : step pattern ⟨fun _ => 0, 0, []⟩ [97, 10, 98] = some _ := if_pos (by decide)
  have hm := ((carried_init _).step (by decide) h₁).2.m
  have h₂ : step pattern (grepRead pattern ⟨fun _ => 0, 0, []⟩ [97, 10, 98]) [99, 10] = some _ :=
    if_pos (by rw [hm]; decide)
  rw [grep, exec_cons, h₁, Option.bind_some, exec_cons, h₂]
  exact Option.some_ne_none _

/-- A line in two pieces: its first two bytes are lost. -/
theorem grep_loses_bytes :
    grep [] (fun _ => 0) [[97, 98], [99, 10]] = some [99, 10] ∧
      selected [] [97, 98, 99, 10] = [97, 98, 99, 10] := by
  decide +kernel

end Xv6.Grep
