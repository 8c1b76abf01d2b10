import Xv6.Sh.Grammar

/-!
# The words of a command are terminated in place

All words of a command point into the line, and `nulterminate` overwrites the character behind
each of them when the whole line has been parsed.  That is a separator, the first character of an
operator or the NUL at the end, never a character of a word, so no word is damaged however close
the words stand.

The words of a simple command are in the arrays `argv` and `eargv`.  The parser stops before the
last slot, which is left for the null pointer that ends them.

## Main definitions

* `Execcmd`, `Execcmd.fill` — the arrays, and what `parseexec` stores in them.
* `terminateArgs` — the loop of `nulterminate` over the arrays.
* `erasures` — the places that `nulterminate` writes to.

## Main results

* `fill_spec` — the arrays hold the words and end with a null pointer.
* `words_terminated` — the result for every line that is accepted.
-/

namespace Xv6.Sh

open Function Outcome

variable {l buf : List Char} {c : Cmd Ptr} {ts : List Tok}

/-! ## The arrays of a simple command -/

/-- `struct execcmd`; `none` is a null pointer. -/
structure Execcmd where
  argv : Fin MAXARGS → Option (List Char)
  eargv : Fin MAXARGS → Option (List Char)

/-- `execcmd()`: `memset` clears the arrays. -/
def execcmd : Execcmd := ⟨fun _ => none, fun _ => none⟩

/-- `cmd->argv[argc] = q; cmd->eargv[argc] = eq;` -/
def Execcmd.store (e : Execcmd) (argc : Fin MAXARGS) (p : Ptr) : Execcmd :=
  ⟨update e.argv argc (some p.q), update e.eargv argc (some p.eq)⟩

/-- `cmd->argv[argc] = 0; cmd->eargv[argc] = 0;` -/
def Execcmd.clear (e : Execcmd) (argc : Fin MAXARGS) : Execcmd :=
  ⟨update e.argv argc none, update e.eargv argc none⟩

/-- What `parseexec` stores for words, from slot `argc` on; `none` if that is outside of the
arrays. -/
def Execcmd.fill : ℕ → List Ptr → Execcmd → Option Execcmd
  | argc, [], e => if h : argc < MAXARGS then some (e.clear ⟨argc, h⟩) else none
  | argc, p :: ps, e =>
    if h : argc < MAXARGS then Execcmd.fill (argc + 1) ps (e.store ⟨argc, h⟩ p) else none

/-- `for(i=0; ecmd->argv[i]; i++) *ecmd->eargv[i] = 0;`, for at most so many rounds; `none` if it
leaves the arrays or follows a null pointer. -/
def terminateArgs (e : Execcmd) : ℕ → ℕ → List Char → Option (List Char)
  | 0, _, _ => none
  | k + 1, i, buf =>
    if h : i < MAXARGS then
      if e.argv ⟨i, h⟩ = none then some buf
      else (e.eargv ⟨i, h⟩).bind fun eq => terminateArgs e k (i + 1) (erase buf eq)
    else none

/-- The arrays hold the words from slot `argc` on, and a null pointer behind them. -/
structure Execcmd.Holds (e : Execcmd) (argc : ℕ) (ps : List Ptr) : Prop where
  words : ∀ (i : Fin MAXARGS) (p : Ptr), argc ≤ i.val → ps[i.val - argc]? = some p →
    e.argv i = some p.q ∧ e.eargv i = some p.eq
  null : ∃ h : argc + ps.length < MAXARGS, e.argv ⟨argc + ps.length, h⟩ = none

theorem Execcmd.Holds.head {e : Execcmd} {argc : ℕ} {p : Ptr} {ps : List Ptr}
    (h : e.Holds argc (p :: ps)) : ∃ hlt : argc < MAXARGS,
      e.argv ⟨argc, hlt⟩ = some p.q ∧ e.eargv ⟨argc, hlt⟩ = some p.eq := by
  obtain ⟨hlt, -⟩ := h.null
  have hargc : argc < MAXARGS := by
    rw [List.length_cons] at hlt
    omega
  exact ⟨hargc, h.words ⟨argc, hargc⟩ p (Nat.le_refl argc) (by simp)⟩

theorem Execcmd.Holds.tail {e : Execcmd} {argc : ℕ} {p : Ptr} {ps : List Ptr}
    (h : e.Holds argc (p :: ps)) : e.Holds (argc + 1) ps := by
  constructor
  · intro i r hi hr
    refine h.words i r (by omega) ?_
    rwa [show i.val - argc = (i.val - (argc + 1)) + 1 by omega, List.getElem?_cons_succ]
  · obtain ⟨hlt, hnull⟩ := h.null
    have hindex : argc + (p :: ps).length = argc + 1 + ps.length := by
      rw [List.length_cons]
      omega
    refine ⟨hindex ▸ hlt, ?_⟩
    rw [← hnull]
    congr 2
    exact hindex.symm

/-- **The arrays hold the words.**  The slots before `argc` stay. -/
theorem fill_spec {argc : ℕ} {ps : List Ptr} (e : Execcmd) (hlen : argc + ps.length < MAXARGS) :
    ∃ e', e.fill argc ps = some e' ∧ e'.Holds argc ps ∧
      ∀ i : Fin MAXARGS, i.val < argc → e'.argv i = e.argv i ∧ e'.eargv i = e.eargv i := by
  induction ps generalizing argc e with
  | nil =>
    have hlt : argc < MAXARGS := hlen
    refine ⟨e.clear ⟨argc, hlt⟩, dif_pos hlt, ⟨fun i p _ hp => by simp at hp, hlen, ?_⟩, ?_⟩
    · exact update_self ..
    · intro i hi
      have hne : i ≠ ⟨argc, hlt⟩ := fun heq => by simp [heq] at hi
      exact ⟨update_of_ne hne .., update_of_ne hne ..⟩
  | cons p ps ih =>
    rw [List.length_cons] at hlen
    have hlt : argc < MAXARGS := by omega
    have hrest : argc + 1 + ps.length < MAXARGS := by omega
    obtain ⟨e', hfill, hholds, hkeep⟩ := ih (e.store ⟨argc, hlt⟩ p) hrest
    refine ⟨e', ?_, ⟨fun i r hi hr => ?_, ?_⟩, fun i hi => ?_⟩
    · rw [Execcmd.fill, dif_pos hlt, hfill]
    · by_cases heq : i.val = argc
      · obtain rfl : i = ⟨argc, hlt⟩ := Fin.ext heq
        obtain rfl : p = r := by simpa using hr
        obtain ⟨hargv, heargv⟩ := hkeep ⟨argc, hlt⟩ (Nat.lt_succ_self argc)
        rw [hargv, heargv]
        exact ⟨update_self .., update_self ..⟩
      · refine hholds.words i r (by omega) ?_
        rwa [show i.val - argc = (i.val - (argc + 1)) + 1 by omega,
          List.getElem?_cons_succ] at hr
    · obtain ⟨hnull, heq⟩ := hholds.null
      have hindex : argc + (p :: ps).length = argc + 1 + ps.length := by
        rw [List.length_cons]
        omega
      refine ⟨hindex ▸ hnull, ?_⟩
      rw [← heq]
      congr 2
    · have hne : i ≠ ⟨argc, hlt⟩ := fun heq => by simp [heq] at hi
      obtain ⟨hargv, heargv⟩ := hkeep i (by omega)
      rw [hargv, heargv]
      exact ⟨update_of_ne hne .., update_of_ne hne ..⟩

/-- The loop over the arrays terminates the words of the list. -/
theorem terminateArgs_eq {e : Execcmd} {argc k : ℕ} {ps : List Ptr} (h : e.Holds argc ps)
    (hk : ps.length < k) (buf : List Char) :
    terminateArgs e k argc buf = some (ps.foldl (fun buf p => erase buf p.eq) buf) := by
  induction ps generalizing argc k buf with
  | nil =>
    obtain ⟨k, rfl⟩ : ∃ j, k = j + 1 := ⟨k - 1, by omega⟩
    obtain ⟨hlt, hnull⟩ := h.null
    rw [terminateArgs, dif_pos (show argc < MAXARGS from hlt),
      if_pos (show e.argv ⟨argc, _⟩ = none from hnull)]
    rfl
  | cons p ps ih =>
    rw [List.length_cons] at hk
    obtain ⟨k, rfl⟩ : ∃ j, k = j + 1 := ⟨k - 1, by omega⟩
    obtain ⟨hlt, hargv, heargv⟩ := h.head
    rw [terminateArgs, dif_pos hlt, if_neg (by simp [hargv]), heargv, Option.bind_some,
      ih h.tail (by omega)]
    rfl

/-! ## The places that are written to -/

/-- The places that `nulterminate` writes to in a buffer with a line of `n` characters. -/
def erasures (n : ℕ) : Cmd Ptr → List ℕ
  | .exec argv => argv.map fun p => n - p.eq.length
  | .redir cmd file _ _ => erasures n cmd ++ [n - file.eq.length]
  | .pipe left right | .list left right => erasures n left ++ erasures n right
  | .back cmd => erasures n cmd

/-- NULs are written to places. -/
def writeNuls (buf : List Char) (is : List ℕ) : List Char :=
  is.foldl (fun buf i => buf.set i NUL) buf

theorem length_writeNuls (buf : List Char) (is : List ℕ) :
    (writeNuls buf is).length = buf.length := by
  induction is generalizing buf with
  | nil => rfl
  | cons i is ih => rw [writeNuls, List.foldl_cons, ← writeNuls, ih, List.length_set]

theorem writeNuls_append (buf : List Char) (is js : List ℕ) :
    writeNuls buf (is ++ js) = writeNuls (writeNuls buf is) js := List.foldl_append

theorem erase_eq_set {n : ℕ} (hbuf : buf.length = n + 1) (eq : List Char) :
    erase buf eq = buf.set (n - eq.length) NUL := by
  rw [erase, hbuf, Nat.add_sub_cancel]

/-- **`nulterminate` writes only there.** -/
theorem nulterminate_eq {n : ℕ} (c : Cmd Ptr) (hbuf : buf.length = n + 1) :
    nulterminate c buf = writeNuls buf (erasures n c) := by
  induction c generalizing buf with
  | exec argv =>
    induction argv generalizing buf with
    | nil => rfl
    | cons p argv ih =>
      have hset : (buf.set (n - p.eq.length) NUL).length = n + 1 := by
        rw [List.length_set, hbuf]
      rw [nulterminate, List.foldl_cons, erase_eq_set hbuf]
      exact ih hset
  | redir cmd file mode fd ih =>
    rw [nulterminate, ih hbuf, erase_eq_set (by rw [length_writeNuls, hbuf]), erasures,
      writeNuls_append]
    rfl
  | pipe left right ih ih' | list left right ih ih' =>
    rw [nulterminate, ih hbuf, ih' (by rw [length_writeNuls, hbuf]), erasures, writeNuls_append]
  | back cmd ih => exact ih hbuf

/-- What `nulterminate` may overwrite: the NUL at the end, a separator or an operator. -/
def Overwritable (l : List Char) (i : ℕ) : Prop :=
  i = l.length ∨ ∃ a, l[i]? = some a ∧ (isWhite a = true ∨ a ∈ symbols)

theorem overwritable_of_isWord {p : Ptr} {w : List Char} (hp : p.IsWord l w) :
    Overwritable l (l.length - p.eq.length) := by
  obtain ⟨front, hfront⟩ := hp.start
  have hl : l = (front ++ w) ++ p.eq := by rw [List.append_assoc, ← hp.split, hfront]
  have hpos : l.length - p.eq.length = (front ++ w).length := by
    rw [hl]
    simp only [List.length_append]
    omega
  have hstop := hp.stop
  cases heq : p.eq with
  | nil => exact .inl (by simp)
  | cons a eq =>
    refine .inr ⟨a, ?_, ?_⟩
    · rw [← heq, hpos]
      conv_lhs => rw [hl]
      rw [List.getElem?_append_right (Nat.le_refl _), Nat.sub_self, heq]
      rfl
    · rw [heq] at hstop
      simpa [isWord, isWhite, or_iff_not_imp_left] using hstop

theorem mem_erasures {n i : ℕ} (h : i ∈ erasures n c) : ∃ p ∈ c.words, i = n - p.eq.length := by
  induction c with
  | exec argv =>
    obtain ⟨p, hp, rfl⟩ := List.mem_map.mp h
    exact ⟨p, hp, rfl⟩
  | redir cmd file mode fd ih =>
    rcases List.mem_append.mp h with h | h
    · obtain ⟨p, hp, hi⟩ := ih h
      exact ⟨p, List.mem_cons_of_mem file hp, hi⟩
    · exact ⟨file, List.mem_cons_self, List.mem_singleton.mp h⟩
  | pipe left right ih ih' | list left right ih ih' =>
    rcases List.mem_append.mp h with h | h
    · obtain ⟨p, hp, hi⟩ := ih h
      exact ⟨p, List.mem_append_left _ hp, hi⟩
    · obtain ⟨p, hp, hi⟩ := ih' h
      exact ⟨p, List.mem_append_right _ hp, hi⟩
  | back cmd ih => exact ih h

/-! ## Simple commands -/

/-- The words of the simple commands of a command. -/
def Cmd.execs {W : Type} : Cmd W → List (List W)
  | .exec argv => [argv]
  | .redir cmd _ _ _ => cmd.execs
  | .pipe left right | .list left right => left.execs ++ right.execs
  | .back cmd => cmd.execs

section Execs

variable {W V : Type}

theorem execs_map (f : W → V) (d : Cmd W) : (d.map f).execs = d.execs.map (List.map f) := by
  induction d with
  | exec argv => rfl
  | redir cmd file mode fd ih => exact ih
  | pipe left right ih ih' | list left right ih ih' =>
    simp only [Cmd.map, Cmd.execs, ih, ih', List.map_append]
  | back cmd ih => exact ih

theorem execs_redirect (d : Cmd W) (w : W) (t : Token) : (d.redirect w t).execs = d.execs := by
  cases t <;> rfl

theorem execs_wrap (d : Cmd W) (rs : List (Token × W)) : (wrap d rs).execs = d.execs := by
  induction rs generalizing d with
  | nil => rfl
  | cons r rs ih => exact (ih _).trans (execs_redirect d r.2 r.1)

theorem execs_backs (d : Cmd W) (k : ℕ) : (Cmd.back^[k] d).execs = d.execs := by
  induction k generalizing d with
  | zero => rfl
  | succ k ih => exact ih d.back

end Execs

/-- The words of a simple command leave a slot free. -/
theorem Derives.length_execs {ph : Phrase} {d : Cmd (List Char)} (h : Derives ph ts d) :
    ∀ ws ∈ d.execs, ws.length < MAXARGS := by
  induction h with
  | line k _ ih =>
    rw [execs_backs]
    exact ih
  | list k _ _ ih ih' =>
    intro ws hws
    rw [Cmd.execs, execs_backs] at hws
    exact (List.mem_append.mp hws).elim (ih ws) (ih' ws)
  | pipe _ ih => exact ih
  | bar _ _ ih ih' =>
    intro ws hws
    exact (List.mem_append.mp hws).elim (ih ws) (ih' ws)
  | block _ _ ih =>
    rw [execs_wrap]
    exact ih
  | simple _ _ hlen =>
    intro ws hws
    rw [execs_wrap] at hws
    obtain rfl := List.mem_singleton.mp hws
    exact Nat.lt_of_le_of_lt hlen (by decide)

/-! ## The result -/

/-- What `parsecmd` has done when it returns a command and its buffer for a line: the tree is the
one of the grammar; every word of it is a word of the line, and in the buffer that word with a NUL
behind it; the arrays of every simple command hold its words and end with a null pointer; and
`nulterminate` has only written NULs, where there was no character of a word. -/
structure TerminatedWords (l : List Char) (c : Cmd Ptr) (buf : List Char) : Prop where
  tree : Derives .line (tokens l) c.text
  strings : ∀ p ∈ c.words, p.IsWord l p.text ∧ NUL ∉ p.text ∧
    ∃ rest, buf.drop (l.length - p.q.length) = p.text ++ NUL :: rest
  arrays : ∀ argv ∈ c.execs, ∃ e, execcmd.fill 0 argv = some e ∧ e.Holds 0 argv ∧
    ∀ buf, terminateArgs e MAXARGS 0 buf = some (nulterminate (.exec argv) buf)
  writes : buf = writeNuls (l ++ [NUL]) (erasures l.length c)
  places : ∀ i ∈ erasures l.length c, Overwritable l i

/-- **Words are terminated in place**, for every line that is accepted. -/
theorem words_terminated {mem : List Char} {r : Cmd Ptr × List Char}
    (h : parsecmd mem = .ok r) : TerminatedWords (line mem) r.1 r.2 := by
  obtain ⟨c, buf⟩ := r
  obtain ⟨htree, hptrs, hbuf⟩ := (parsecmd_spec mem).of_ok h
  dsimp only at htree hptrs hbuf ⊢
  have hend : Terminated (line mem) (fun p => False ∨ p ∈ c.words) buf :=
    hbuf ▸ nulterminate_terminated (terminated_line (line mem)) hptrs
  refine ⟨htree, fun p hp => ?_, fun argv hargv => ?_, ?_, fun i hi => ?_⟩
  · obtain ⟨w, hw⟩ := hptrs p hp
    obtain ⟨rest, hrest⟩ := hend.string hw (.inr hp)
    rw [hw.text_eq]
    refine ⟨hw, hw.nul_not_mem (nul_not_mem_line mem), rest, ?_⟩
    rwa [hend.length_eq, Nat.add_sub_cancel] at hrest
  · have hlen : argv.length < MAXARGS := by
      have hmap : argv.map Ptr.text ∈ c.text.execs := by
        rw [Cmd.text, execs_map]
        exact List.mem_map_of_mem hargv
      simpa using htree.length_execs _ hmap
    have hfit : 0 + argv.length < MAXARGS := by rwa [Nat.zero_add]
    obtain ⟨e, hfill, hholds, -⟩ := fill_spec execcmd hfit
    exact ⟨e, hfill, hholds, terminateArgs_eq hholds hlen⟩
  · rw [hbuf]
    exact nulterminate_eq c (by simp)
  · obtain ⟨p, hp, rfl⟩ := mem_erasures hi
    obtain ⟨w, hw⟩ := hptrs p hp
    exact overwritable_of_isWord hw

/-- The words of `a|b>c` stand as close as they can. -/
theorem words_terminated_close : ∃ r, parsecmd ['a', '|', 'b', '>', 'c'] = .ok r ∧
    r.2 = ['a', NUL, 'b', NUL, 'c', NUL] ∧ TerminatedWords ['a', '|', 'b', '>', 'c'] r.1 r.2 := by
  have hparse : ∃ r, parsecmd ['a', '|', 'b', '>', 'c'] = .ok r ∧
      r.2 = ['a', NUL, 'b', NUL, 'c', NUL] := ⟨_, rfl, rfl⟩
  obtain ⟨r, hr, hbuf⟩ := hparse
  exact ⟨r, hr, hbuf, words_terminated hr⟩

end Xv6.Sh
