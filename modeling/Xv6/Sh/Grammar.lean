import Xv6.Lib.Outcome
import Xv6.Sh.Parser
import Mathlib.Logic.Function.Iterate

/-!
# The grammar of command lines

`line ::= pipe '&'* [';' line]`, `pipe ::= exec ['|' pipe]`,
`exec ::= '(' line ')' redirs | redirs (word redirs)*` with fewer than `MAXARGS` words, and
`redirs ::= (('<' | '>' | '>>') word)*`.  A derivation determines a command.

## Main definitions

* `Redirs`, `Args`, `Derives` — the derivations.

## Main results

* `parse_sound` — what the parser returns is derived from the tokens it took, and it does not
  run out of rounds.
* `parse_complete` — the parser finds every derivation.
* `parsecmd_spec`, `parsecmd_complete` — the same of `parsecmd`.
* `parsecmd_grammar` — `parsecmd` accepts the lines of the grammar and no others.
-/

namespace Xv6.Sh

open Outcome

/-! ## Derivations -/

/-- Redirections, with their files. -/
inductive Redirs : List Tok → List (Token × List Char) → Prop
  | nil : Redirs [] []
  | cons {t : Tok} {w : List Char} {ts : List Tok} {rs : List (Token × List Char)}
      (ht : t = .lt ∨ t = .gt ∨ t = .append) (h : Redirs ts rs) :
      Redirs (t :: .word w :: ts) ((t.kind, w) :: rs)

/-- Words with redirections behind them. -/
inductive Args : List Tok → List (List Char) → List (Token × List Char) → Prop
  | nil : Args [] [] []
  | word {w : List Char} {ts us : List Tok} {ws : List (List Char)}
      {rs rs' : List (Token × List Char)} (h : Redirs ts rs) (h' : Args us ws rs') :
      Args (.word w :: ts ++ us) (w :: ws) (rs ++ rs')

/-- The redirections around a command; the first one is the innermost. -/
def wrap {W : Type} (c : Cmd W) (rs : List (Token × W)) : Cmd W :=
  rs.foldl (fun c r => c.redirect r.2 r.1) c

/-- The nonterminals. -/
inductive Phrase
  | line
  | pipe
  | exec

inductive Derives : Phrase → List Tok → Cmd (List Char) → Prop
  | line {ts : List Tok} {c : Cmd (List Char)} (n : ℕ) (h : Derives .pipe ts c) :
      Derives .line (ts ++ List.replicate n .amp) (Cmd.back^[n] c)
  | list {ts us : List Tok} {c d : Cmd (List Char)} (n : ℕ) (h : Derives .pipe ts c)
      (h' : Derives .line us d) :
      Derives .line (ts ++ List.replicate n .amp ++ .semi :: us) (.list (Cmd.back^[n] c) d)
  | pipe {ts : List Tok} {c : Cmd (List Char)} (h : Derives .exec ts c) : Derives .pipe ts c
  | bar {ts us : List Tok} {c d : Cmd (List Char)} (h : Derives .exec ts c)
      (h' : Derives .pipe us d) : Derives .pipe (ts ++ .bar :: us) (.pipe c d)
  | block {ts us : List Tok} {c : Cmd (List Char)} {rs : List (Token × List Char)}
      (h : Derives .line ts c) (h' : Redirs us rs) :
      Derives .exec (.lparen :: ts ++ .rparen :: us) (wrap c rs)
  | simple {ts us : List Tok} {ws : List (List Char)} {rs rs' : List (Token × List Char)}
      (h : Redirs ts rs) (h' : Args us ws rs') (hlen : ws.length ≤ MAXARGS - 1) :
      Derives .exec (ts ++ us) (wrap (.exec ws) (rs ++ rs'))

/-! ## Commands -/

/-- The words of a command, as they are in the line. -/
def Cmd.text (c : Cmd Ptr) : Cmd (List Char) := c.map Ptr.text

section Cmd

variable {W V : Type}

theorem map_redirect (f : W → V) (c : Cmd W) (w : W) (t : Token) :
    (c.redirect w t).map f = (c.map f).redirect (f w) t := by
  cases t <;> rfl

theorem map_addArg (f : W → V) (c : Cmd W) (w : W) :
    (c.addArg w).map f = (c.map f).addArg (f w) := by
  induction c with
  | exec argv => simp [Cmd.addArg, Cmd.map]
  | redir cmd file mode fd ih => simp [Cmd.addArg, Cmd.map, ih]
  | pipe | list | back => rfl

theorem addArg_redirect (c : Cmd W) (v w : W) {t : Token} :
    (c.redirect v t).addArg w = (c.addArg w).redirect v t := by
  cases t <;> rfl

theorem addArg_wrap (c : Cmd W) (rs : List (Token × W)) (w : W) :
    (wrap c rs).addArg w = wrap (c.addArg w) rs := by
  induction rs generalizing c with
  | nil => rfl
  | cons r rs ih => exact (ih _).trans (by rw [addArg_redirect]; rfl)

theorem wrap_append (c : Cmd W) (rs rs' : List (Token × W)) :
    wrap c (rs ++ rs') = wrap (wrap c rs) rs' := List.foldl_append

theorem words_redirect {c : Cmd W} {v w : W} {t : Token} (h : v ∈ (c.redirect w t).words) :
    v = w ∨ v ∈ c.words := by
  cases t <;> simp only [Cmd.redirect, Cmd.words, List.mem_cons] at h <;> tauto

theorem words_addArg {c : Cmd W} {v w : W} (h : v ∈ (c.addArg w).words) : v = w ∨ v ∈ c.words := by
  induction c with
  | exec argv =>
    simp only [Cmd.addArg, Cmd.words, List.mem_append, List.mem_singleton] at h ⊢
    tauto
  | redir cmd file mode fd ih =>
    simp only [Cmd.addArg, Cmd.words, List.mem_cons] at h ⊢
    tauto
  | pipe | list | back => exact .inr h

end Cmd

/-! ## Soundness -/

/-- A function that was called at `s` took tokens that are in `Q` with the command it returns,
and all its pointers are words of the line. -/
structure Parsed (l : List Char) (Q : List Tok → Cmd (List Char) → Prop) (s : List Char)
    (r : Cmd Ptr × List Char) : Prop where
  rest : r.2 <:+ l
  ptrs : ∀ p ∈ r.1.words, ∃ w, p.IsWord l w
  taken : ∃ ts, tokens s = ts ++ tokens r.2 ∧ Q ts r.1.text

variable {l s : List Char} {c : Cmd Ptr} {n : ℕ} {t : Tok} {ts : List Tok}

theorem Parsed.length_le {Q : List Tok → Cmd (List Char) → Prop} {r : Cmd Ptr × List Char}
    (h : Parsed l Q s r) : (tokens r.2).length ≤ (tokens s).length := by
  obtain ⟨ts, hts, -⟩ := h.taken
  simp [hts]

/-- A token that `peek` has found is the next one that `gettoken` takes. -/
theorem gettoken_found {toks : List Char}
    (h : (tokens s).head?.any (Tok.startsIn toks) = true) :
    ∃ t ts p s', tokens s = t :: ts ∧ t.startsIn toks = true ∧
      gettoken (skip s) = (t.kind, p, s') ∧ tokens s' = ts ∧ s' <:+ s := by
  cases hts : tokens s with
  | nil => simp [hts] at h
  | cons t ts =>
    rw [hts] at h
    obtain ⟨p, s', htok, hs', hsuf, -⟩ := gettoken_cons ((tokens_skip s).trans hts)
    exact ⟨t, ts, p, s', rfl, by simpa using h, htok, hs', hsuf.trans (skip_suffix s)⟩

theorem kind_eq_word (h : t.kind = .word) : ∃ w, t = .word w := by
  cases t with
  | word w => exact ⟨w, rfl⟩
  | _ => cases h

theorem startsIn_redir (h : t.startsIn ['<', '>'] = true) : t = .lt ∨ t = .gt ∨ t = .append := by
  cases t <;> simp [Tok.startsIn, Tok.first] at h ⊢

theorem parseredirs_sound (hs : s <:+ l) (hc : ∀ p ∈ c.words, ∃ w, p.IsWord l w)
    (hn : (tokens s).length < n) :
    Sat (· ≠ .fuel) (Parsed l (fun ts d => ∃ rs, Redirs ts rs ∧ d = wrap c.text rs) s)
      (parseredirs n c s) := by
  induction n generalizing c s with
  | zero => exact absurd hn (Nat.not_lt_zero _)
  | succ n ih =>
    have hskip := tokens_skip s
    have hsuffix := (skip_suffix s).trans hs
    simp only [parseredirs, peek_eq ['<', '>'] (by decide)]
    split
    · rename_i hfound
      cases hts : tokens s with
      | nil => simp [hts] at hfound
      | cons t ts =>
        rw [hts] at hskip hfound hn
        have ht := startsIn_redir (by simpa using hfound)
        obtain ⟨p, s₁, htok, hs₁, hsuf₁, -⟩ := gettoken_cons hskip
        rw [htok]
        cases ts with
        | nil =>
          rw [gettoken_nil hs₁]
          simp
        | cons t' ts =>
          obtain ⟨p', s₂, htok', hs₂, hsuf₂, hword⟩ := gettoken_cons hs₁
          rw [htok']
          dsimp only
          split
          · rename_i hkind
            obtain ⟨w, rfl⟩ := kind_eq_word hkind
            have hp := (hword w rfl).of_suffix (hsuf₁.trans hsuffix)
            refine (ih (hsuf₂.trans (hsuf₁.trans hsuffix)) ?_ ?_).imp fun r hr => ?_
            · intro v hv
              rcases words_redirect hv with rfl | hv
              · exact ⟨w, hp⟩
              · exact hc v hv
            · rw [hs₂]
              simp only [List.length_cons] at hn
              omega
            · obtain ⟨us, hus, rs, hrs, htext⟩ := hr.taken
              refine ⟨hr.rest, hr.ptrs, t :: .word w :: us, ?_, (t.kind, w) :: rs,
                .cons ht hrs, ?_⟩
              · simp [hts, ← hs₂, hus]
              · rw [htext, Cmd.text, map_redirect, hp.text_eq]
                rfl
          · simp
    · exact ⟨hsuffix, hc, [], by simp [hskip], [], .nil, rfl⟩

/-- What `peek` finds when it looks for one symbol other than `>`. -/
theorem eq_of_startsIn {a : Char} {u : Tok} (hu : symbol a = some u) (hgt : u ≠ .gt)
    (h : t.startsIn [a] = true) : t = u := by
  have hfirst : t.first = some a := by
    cases hfirst : t.first with
    | none => simp [Tok.startsIn, hfirst] at h
    | some b => simpa [Tok.startsIn, hfirst] using h
  cases t <;> cases hfirst <;> cases hu <;> first | rfl | exact absurd rfl hgt

theorem parsebacks_sound (hs : s <:+ l) (hc : ∀ p ∈ c.words, ∃ w, p.IsWord l w)
    (hn : (tokens s).length < n) :
    Sat (· ≠ .fuel)
      (Parsed l (fun ts d => ∃ k, ts = List.replicate k .amp ∧ d = Cmd.back^[k] c.text) s)
      (parsebacks n c s) := by
  induction n generalizing c s with
  | zero => exact absurd hn (Nat.not_lt_zero _)
  | succ n ih =>
    simp only [parsebacks, peek_eq ['&'] (by decide)]
    split
    · rename_i hfound
      obtain ⟨t, ts, p, s', hts, ht, htok, hs', hsuf⟩ := gettoken_found hfound
      obtain rfl := eq_of_startsIn (u := .amp) rfl (by decide) ht
      rw [htok]
      rw [hts, List.length_cons] at hn
      refine (ih (c := .back c) (hsuf.trans hs) hc (by rw [hs']; omega)).imp fun r hr => ?_
      obtain ⟨us, hus, k, rfl, htext⟩ := hr.taken
      refine ⟨hr.rest, hr.ptrs, .amp :: List.replicate k .amp, ?_, k + 1, rfl, htext⟩
      rw [hts, ← hs', hus]
      rfl
    · exact ⟨(skip_suffix s).trans hs, hc, [], by simp [tokens_skip], 0, rfl, rfl⟩

theorem parseargs_sound {argc : ℕ} (ws : List (List Char)) {rs : List (Token × List Char)}
    (hs : s <:+ l) (hc : ∀ p ∈ c.words, ∃ w, p.IsWord l w) (htext : c.text = wrap (.exec ws) rs)
    (hargc : argc = ws.length) (hmax : argc ≤ MAXARGS - 1) (hn : (tokens s).length < n) :
    Sat (· ≠ .fuel)
      (Parsed l (fun ts d => ∃ ws' rs', Args ts ws' rs' ∧ (ws ++ ws').length ≤ MAXARGS - 1 ∧
        d = wrap (.exec (ws ++ ws')) (rs ++ rs')) s)
      (parseargs n c argc s) := by
  induction n generalizing c s argc ws rs with
  | zero => exact absurd hn (Nat.not_lt_zero _)
  | succ n ih =>
    have hskip := tokens_skip s
    have hsuffix := (skip_suffix s).trans hs
    have hstop : Parsed l (fun ts d => ∃ ws' rs', Args ts ws' rs' ∧
        (ws ++ ws').length ≤ MAXARGS - 1 ∧ d = wrap (.exec (ws ++ ws')) (rs ++ rs')) s
        (c, skip s) :=
      ⟨hsuffix, hc, [], by simp [hskip], [], [], .nil, by simpa [← hargc] using hmax,
        by simpa using htext⟩
    simp only [parseargs, peek_eq ['|', ')', '&', ';'] (by decide)]
    split
    · exact hstop
    · cases hts : tokens s with
      | nil =>
        rw [hts] at hskip
        rw [gettoken_nil hskip]
        rw [skip_eq_nil hts] at hstop
        simpa using hstop
      | cons t ts =>
        rw [hts] at hskip hn
        obtain ⟨p, s₁, htok, hs₁, hsuf₁, hword⟩ := gettoken_cons hskip
        rw [htok]
        dsimp only
        split
        · rename_i heol
          cases t <;> cases heol
        split
        · simp
        rename_i hkind
        obtain ⟨w, rfl⟩ := kind_eq_word (not_not.mp hkind)
        split
        · simp
        rename_i hlt
        have hp := (hword w rfl).of_suffix hsuffix
        rw [sat_bind]
        rw [List.length_cons] at hn
        refine (parseredirs_sound (hsuf₁.trans hsuffix) ?_ (by rw [hs₁]; omega)).imp
          fun r hr => ?_
        · intro v hv
          rcases words_addArg hv with rfl | hv
          · exact ⟨w, hp⟩
          · exact hc v hv
        · obtain ⟨us, hus, rs₁, hrs₁, htext₁⟩ := hr.taken
          have hadd : r.1.text = wrap (.exec (ws ++ [w])) (rs ++ rs₁) := by
            rw [htext₁, Cmd.text, map_addArg, hp.text_eq, ← Cmd.text, htext, addArg_wrap,
              wrap_append]
            rfl
          refine (ih _ hr.rest hr.ptrs hadd (by simp [hargc]) (by omega) ?_).imp
            fun r' hr' => ?_
          · have hle := hr.length_le
            rw [hs₁] at hle
            omega
          · obtain ⟨vs, hvs, ws', rs', hargs, hlen, htext'⟩ := hr'.taken
            refine ⟨hr'.rest, hr'.ptrs, .word w :: us ++ vs, ?_, w :: ws', rs₁ ++ rs',
              .word hrs₁ hargs, by simpa using hlen, by simpa using htext'⟩
            rw [hts, ← hs₁, hus, hvs]
            simp

/-- **Soundness.**  With as many rounds as the tokens may need the parser does not run out of
them, and what it returns is derived from the tokens it took. -/
theorem parse_sound (n : ℕ) :
    (∀ s, s <:+ l → 4 * (tokens s).length + 4 ≤ n →
      Sat (· ≠ .fuel) (Parsed l (Derives .line) s) (parseline n s)) ∧
    (∀ s, s <:+ l → 4 * (tokens s).length + 3 ≤ n →
      Sat (· ≠ .fuel) (Parsed l (Derives .pipe) s) (parsepipe n s)) ∧
    (∀ s, s <:+ l → 4 * (tokens s).length + 2 ≤ n →
      Sat (· ≠ .fuel) (Parsed l (Derives .exec) s) (parseexec n s)) ∧
    ∀ s, s <:+ l → 4 * (tokens s).length + 1 ≤ n →
      Sat (· ≠ .fuel) (Parsed l (Derives .exec) s) (parseblock n s) := by
  induction n with
  | zero => exact ⟨fun _ _ h => by omega, fun _ _ h => by omega, fun _ _ h => by omega,
      fun _ _ h => by omega⟩
  | succ n ih =>
    obtain ⟨ihline, ihpipe, ihexec, ihblock⟩ := ih
    refine ⟨fun s hs hn => ?_, fun s hs hn => ?_, fun s hs hn => ?_, fun s hs hn => ?_⟩
    · -- `parseline`
      simp only [parseline, sat_bind]
      refine (ihpipe s hs (by omega)).imp fun r hr => ?_
      have hle := hr.length_le
      refine (parsebacks_sound hr.rest hr.ptrs (by omega)).imp fun r₁ hr₁ => ?_
      have hle₁ := hr₁.length_le
      obtain ⟨ts, hts, hpipe⟩ := hr.taken
      obtain ⟨us, hus, k, rfl, htext⟩ := hr₁.taken
      simp only [peek_eq [';'] (by decide)]
      split
      · rename_i hfound
        obtain ⟨t, vs, p, s', hvs, ht, htok, hs', hsuf⟩ := gettoken_found hfound
        obtain rfl := eq_of_startsIn (u := .semi) rfl (by decide) ht
        rw [htok, sat_bind]
        rw [hvs, List.length_cons] at hle₁
        refine (ihline s' (hsuf.trans hr₁.rest) (by rw [hs']; omega)).imp fun r₂ hr₂ => ?_
        obtain ⟨vs', hvs', hline⟩ := hr₂.taken
        refine ⟨hr₂.rest, ?_, ts ++ List.replicate k .amp ++ .semi :: vs', ?_, ?_⟩
        · intro p hp
          rcases List.mem_append.mp hp with hp | hp
          · exact hr₁.ptrs p hp
          · exact hr₂.ptrs p hp
        · rw [hts, hus, hvs, ← hs', hvs']
          simp
        · have hd := Derives.list k hpipe hline
          rw [← htext] at hd
          exact hd
      · refine ⟨(skip_suffix _).trans hr₁.rest, hr₁.ptrs, ts ++ List.replicate k .amp, ?_, ?_⟩
        · rw [hts, hus, tokens_skip, List.append_assoc]
        · rw [htext]
          exact .line k hpipe
    · -- `parsepipe`
      simp only [parsepipe, sat_bind]
      refine (ihexec s hs (by omega)).imp fun r hr => ?_
      have hle := hr.length_le
      obtain ⟨ts, hts, hexec⟩ := hr.taken
      simp only [peek_eq ['|'] (by decide)]
      split
      · rename_i hfound
        obtain ⟨t, vs, p, s', hvs, ht, htok, hs', hsuf⟩ := gettoken_found hfound
        obtain rfl := eq_of_startsIn (u := .bar) rfl (by decide) ht
        rw [htok, sat_bind]
        rw [hvs, List.length_cons] at hle
        refine (ihpipe s' (hsuf.trans hr.rest) (by rw [hs']; omega)).imp fun r₂ hr₂ => ?_
        obtain ⟨vs', hvs', hpipe⟩ := hr₂.taken
        refine ⟨hr₂.rest, ?_, ts ++ .bar :: vs', ?_, .bar hexec hpipe⟩
        · intro p hp
          rcases List.mem_append.mp hp with hp | hp
          · exact hr.ptrs p hp
          · exact hr₂.ptrs p hp
        · rw [hts, hvs, ← hs', hvs']
          simp
      · exact ⟨(skip_suffix _).trans hr.rest, hr.ptrs, ts, by rw [hts, tokens_skip], .pipe hexec⟩
    · -- `parseexec`
      simp only [parseexec, peek_eq ['('] (by decide)]
      have hskip := tokens_skip s
      have hsuffix := (skip_suffix s).trans hs
      split
      · refine (ihblock (skip s) hsuffix (by rw [hskip]; omega)).imp fun r hr => ?_
        obtain ⟨ts, hts, hexec⟩ := hr.taken
        exact ⟨hr.rest, hr.ptrs, ts, by rw [← hskip, hts], hexec⟩
      · rw [sat_bind]
        refine (parseredirs_sound hsuffix (by simp [Cmd.words]) (by rw [hskip]; omega)).imp
          fun r hr => ?_
        have hle := hr.length_le
        rw [hskip] at hle
        obtain ⟨ts, hts, rs, hrs, htext⟩ := hr.taken
        refine (parseargs_sound [] hr.rest hr.ptrs htext rfl (Nat.zero_le _)
          (by omega)).imp fun r₁ hr₁ => ?_
        obtain ⟨us, hus, ws, rs', hargs, hlen, htext₁⟩ := hr₁.taken
        refine ⟨hr₁.rest, hr₁.ptrs, ts ++ us, ?_, ?_⟩
        · rw [← hskip, hts, hus, List.append_assoc]
        · rw [htext₁]
          exact .simple hrs hargs hlen
    · -- `parseblock`
      simp only [parseblock, peek_eq ['('] (by decide)]
      split
      · simp
      · rename_i hfound
        obtain ⟨t, vs, p, s', hvs, ht, htok, hs', hsuf⟩ := gettoken_found (by simpa using hfound)
        obtain rfl := eq_of_startsIn (u := .lparen) rfl (by decide) ht
        rw [htok, sat_bind]
        rw [hvs, List.length_cons] at hn
        refine (ihline s' (hsuf.trans hs) (by rw [hs']; omega)).imp fun r hr => ?_
        have hle := hr.length_le
        rw [hs'] at hle
        obtain ⟨ts, hts, hline⟩ := hr.taken
        simp only [peek_eq [')'] (by decide)]
        split
        · simp
        · rename_i hfound'
          obtain ⟨t, us, p, s₁, hus, ht, htok, hs₁, hsuf₁⟩ :=
            gettoken_found (s := r.2) (by simpa using hfound')
          obtain rfl := eq_of_startsIn (u := .rparen) rfl (by decide) ht
          rw [htok]
          rw [hus, List.length_cons] at hle
          refine (parseredirs_sound (hsuf₁.trans hr.rest) hr.ptrs (by rw [hs₁]; omega)).imp
            fun r₁ hr₁ => ?_
          obtain ⟨us', hus', rs, hrs, htext⟩ := hr₁.taken
          refine ⟨hr₁.rest, hr₁.ptrs, .lparen :: ts ++ .rparen :: us', ?_, ?_⟩
          · rw [hvs, ← hs', hts, hus, ← hs₁, hus']
            simp
          · rw [htext]
            exact .block hline hrs

/-! ## Completeness -/

variable {us rest : List Tok}

/-- A function returns a command with these words, and these tokens are left. -/
def Returns (x : Parse) (d : Cmd (List Char)) (rest : List Tok) : Prop :=
  ∃ c s, x = .ok (c, s) ∧ c.text = d ∧ tokens s = rest

theorem parseredirs_complete {rs : List (Token × List Char)} (h : Redirs us rs)
    (hs : tokens s = us ++ rest) (hrest : rest.head?.any (Tok.startsIn ['<', '>']) = false)
    (hn : (tokens s).length < n) : Returns (parseredirs n c s) (wrap c.text rs) rest := by
  induction n generalizing c s us rs with
  | zero => exact absurd hn (Nat.not_lt_zero _)
  | succ n ih =>
    have hskip := tokens_skip s
    simp only [parseredirs, peek_eq ['<', '>'] (by decide)]
    cases h with
    | nil =>
      rw [hs, List.nil_append, hrest, if_neg Bool.false_ne_true]
      exact ⟨c, skip s, rfl, rfl, by rw [hskip, hs]; rfl⟩
    | @cons t w ts rs ht h =>
      rw [List.cons_append, List.cons_append] at hs
      rw [hs] at hskip hn
      have hfound : (tokens s).head?.any (Tok.startsIn ['<', '>']) = true := by
        rw [hs]
        rcases ht with rfl | rfl | rfl <;> rfl
      obtain ⟨p, s₁, htok, hs₁, -, -⟩ := gettoken_cons hskip
      obtain ⟨p', s₂, htok', hs₂, -, hword⟩ := gettoken_cons hs₁
      rw [hfound, if_pos rfl, htok]
      dsimp only
      rw [htok']
      have hlen : (tokens s₂).length < n := by
        rw [hs₂]
        simp only [List.length_cons] at hn
        omega
      obtain ⟨d, s', hd, htext, hs'⟩ := ih (c := c.redirect p' t.kind) h hs₂ hlen
      refine ⟨d, s', hd, ?_, hs'⟩
      rw [htext, Cmd.text, map_redirect, (hword w rfl).text_eq]
      rfl

theorem parsebacks_complete {k : ℕ} (hs : tokens s = List.replicate k .amp ++ rest)
    (hrest : rest.head?.any (Tok.startsIn ['&']) = false) (hn : (tokens s).length < n) :
    Returns (parsebacks n c s) (Cmd.back^[k] c.text) rest := by
  induction n generalizing c s k with
  | zero => exact absurd hn (Nat.not_lt_zero _)
  | succ n ih =>
    have hskip := tokens_skip s
    simp only [parsebacks, peek_eq ['&'] (by decide)]
    cases k with
    | zero =>
      rw [hs, List.replicate_zero, List.nil_append, hrest, if_neg Bool.false_ne_true]
      exact ⟨c, skip s, rfl, rfl, by rw [hskip, hs]; rfl⟩
    | succ k =>
      rw [hs, List.replicate_succ, List.cons_append] at hskip hn
      have hfound : (tokens s).head?.any (Tok.startsIn ['&']) = true := by
        rw [hs]
        rfl
      obtain ⟨p, s₁, htok, hs₁, -, -⟩ := gettoken_cons hskip
      rw [hfound, if_pos rfl, htok]
      rw [List.length_cons] at hn
      exact ih (c := .back c) hs₁ (by rw [hs₁]; omega)

/-- What may stand behind a phrase. -/
def Phrase.follow : Phrase → Tok → Bool
  | .line, t => t = .rparen
  | .pipe, t => t = .amp ∨ t = .semi ∨ t = .rparen
  | .exec, t => t = .bar ∨ t = .amp ∨ t = .semi ∨ t = .rparen

theorem follow_stops (h : rest.head?.all Phrase.exec.follow = true) :
    rest.head?.any (Tok.startsIn ['<', '>']) = false ∧
      rest.head?.any (Tok.startsIn ['(']) = false ∧
      (rest = [] ∨ rest.head?.any (Tok.startsIn ['|', ')', '&', ';']) = true) := by
  cases rest with
  | nil => exact ⟨rfl, rfl, .inl rfl⟩
  | cons t ts =>
    simp only [List.head?_cons, Option.all_some, Phrase.follow, decide_eq_true_eq] at h
    rcases h with rfl | rfl | rfl | rfl <;> exact ⟨rfl, rfl, .inr rfl⟩

theorem args_head {ws : List (List Char)} {rs : List (Token × List Char)} (h : Args us ws rs)
    (hrest : rest.head?.all Phrase.exec.follow = true) :
    (us ++ rest).head?.any (Tok.startsIn ['<', '>']) = false ∧
      (us ++ rest).head?.any (Tok.startsIn ['(']) = false := by
  cases h with
  | nil => exact ⟨(follow_stops hrest).1, (follow_stops hrest).2.1⟩
  | word h h' => exact ⟨rfl, rfl⟩

theorem parseargs_complete {argc : ℕ} (ws : List (List Char)) {ws' : List (List Char)}
    {rs rs' : List (Token × List Char)} (h : Args us ws' rs')
    (htext : c.text = wrap (.exec ws) rs) (hmax : argc + ws'.length ≤ MAXARGS - 1)
    (hs : tokens s = us ++ rest) (hrest : rest.head?.all Phrase.exec.follow = true)
    (hn : (tokens s).length < n) :
    Returns (parseargs n c argc s) (wrap (.exec (ws ++ ws')) (rs ++ rs')) rest := by
  induction n generalizing c s us argc ws ws' rs rs' with
  | zero => exact absurd hn (Nat.not_lt_zero _)
  | succ n ih =>
    have hskip := tokens_skip s
    simp only [parseargs, peek_eq ['|', ')', '&', ';'] (by decide)]
    cases h with
    | nil =>
      rw [List.nil_append] at hs
      rcases (follow_stops hrest).2.2 with rfl | hfound
      · rw [hs] at hskip
        rw [hs, gettoken_nil hskip]
        exact ⟨c, [], rfl, by simpa using htext, rfl⟩
      · rw [hs, hfound, if_pos rfl]
        exact ⟨c, skip s, rfl, by simpa using htext, by rw [hskip, hs]⟩
    | @word w ts us ws' rs₁ rs' h h' =>
      rw [List.cons_append, List.cons_append, List.append_assoc] at hs
      rw [hs] at hskip hn
      have hfound : (tokens s).head?.any (Tok.startsIn ['|', ')', '&', ';']) = false := by
        rw [hs]
        rfl
      obtain ⟨p, s₁, htok, hs₁, -, hword⟩ := gettoken_cons hskip
      have hlt : ¬ MAXARGS ≤ argc + 1 := by
        simp only [List.length_cons, MAXARGS] at hmax ⊢
        omega
      rw [hfound, if_neg Bool.false_ne_true, htok]
      simp only [Tok.kind, ne_eq, not_true_eq_false, if_false, hlt, reduceCtorEq]
      have hlen : (tokens s₁).length < n := by
        rw [hs₁]
        simp only [List.length_cons] at hn
        omega
      obtain ⟨d, s₂, hd, hdtext, hs₂⟩ :=
        parseredirs_complete (c := c.addArg p) h hs₁ (args_head h' hrest).1 hlen
      rw [hd]
      have hadd : d.text = wrap (.exec (ws ++ [w])) (rs ++ rs₁) := by
        rw [hdtext, Cmd.text, map_addArg, (hword w rfl).text_eq, ← Cmd.text, htext,
          addArg_wrap, wrap_append]
        rfl
      have hlen₂ : (tokens s₂).length < n := by
        rw [hs₂]
        rw [hs₁] at hlen
        simp only [List.length_append] at hlen ⊢
        omega
      have hmax' : argc + 1 + ws'.length ≤ MAXARGS - 1 := by
        simp only [List.length_cons] at hmax
        omega
      obtain ⟨e, s₃, he, hetext, hs₃⟩ := ih _ h' hadd hmax' hs₂ hlen₂
      exact ⟨e, s₃, he, by simpa using hetext, hs₃⟩

/-- The function for a phrase. -/
def parse : Phrase → ℕ → List Char → Parse
  | .line => parseline
  | .pipe => parsepipe
  | .exec => parseexec

/-- The rounds that a phrase needs besides those for its tokens. -/
def Phrase.rounds : Phrase → ℕ
  | .line => 4
  | .pipe => 3
  | .exec => 2

theorem follow_amps {k : ℕ} {vs : List Tok} (h : vs.head?.all Phrase.pipe.follow = true) :
    (List.replicate k Tok.amp ++ vs).head?.all Phrase.pipe.follow = true := by
  cases k with
  | zero => simpa using h
  | succ k => rfl

/-- **Completeness.**  The parser finds every derivation that is followed by what may follow
it. -/
theorem parse_complete {ph : Phrase} {d : Cmd (List Char)} (h : Derives ph us d) :
    ∀ s n rest, tokens s = us ++ rest → rest.head?.all ph.follow = true →
      4 * (tokens s).length + ph.rounds ≤ n → Returns (parse ph n s) d rest := by
  induction h with
  | @line ts d k h ih =>
    intro s n rest hs hrest hn
    obtain ⟨n, rfl⟩ : ∃ m, n = m + 1 := ⟨n - 1, by simp only [Phrase.rounds] at hn; omega⟩
    simp only [Phrase.rounds] at hn
    rw [List.append_assoc] at hs
    have hrest' : rest.head?.all Phrase.pipe.follow = true ∧
        rest.head?.any (Tok.startsIn ['&']) = false ∧
        rest.head?.any (Tok.startsIn [';']) = false := by
      cases rest with
      | nil => exact ⟨rfl, rfl, rfl⟩
      | cons t ts =>
        obtain rfl : t = .rparen := by simpa [Phrase.follow] using hrest
        exact ⟨rfl, rfl, rfl⟩
    obtain ⟨c, s₁, hc, rfl, hs₁⟩ := ih s n _ hs (follow_amps hrest'.1)
      (by simp only [Phrase.rounds]; omega)
    have hlen : (tokens s₁).length ≤ (tokens s).length := by simp [hs, hs₁]
    obtain ⟨c₂, s₂, hc₂, htext, hs₂⟩ := parsebacks_complete (n := n) (c := c) hs₁ hrest'.2.1
      (by omega)
    simp only [parse] at hc ⊢
    simp only [parseline, hc, bind, Except.bind, hc₂, peek_eq [';'] (by decide), hs₂,
      hrest'.2.2, Bool.false_eq_true, if_false]
    exact ⟨c₂, skip s₂, rfl, htext, by rw [tokens_skip, hs₂]⟩
  | @list ts vs d e k h h' ih ih' =>
    intro s n rest hs hrest hn
    obtain ⟨n, rfl⟩ : ∃ m, n = m + 1 := ⟨n - 1, by simp only [Phrase.rounds] at hn; omega⟩
    simp only [Phrase.rounds] at hn
    simp only [List.append_assoc, List.cons_append] at hs
    obtain ⟨c, s₁, hc, rfl, hs₁⟩ := ih s n _ hs (follow_amps rfl)
      (by simp only [Phrase.rounds]; omega)
    have hlen : (tokens s₁).length ≤ (tokens s).length := by simp [hs, hs₁]
    obtain ⟨c₂, s₂, hc₂, htext, hs₂⟩ := parsebacks_complete (n := n) (c := c) hs₁ rfl (by omega)
    obtain ⟨p, s₃, htok, hs₃, -, -⟩ := gettoken_cons ((tokens_skip s₂).trans hs₂)
    have hlen₃ : (tokens s₃).length + 1 ≤ (tokens s).length := by
      simp only [hs, hs₃, List.length_append, List.length_cons]
      omega
    obtain ⟨c₄, s₄, hc₄, rfl, hs₄⟩ := ih' s₃ n rest hs₃ hrest
      (by simp only [Phrase.rounds]; omega)
    simp only [parse] at hc hc₄ ⊢
    have hfound : (tokens s₂).head?.any (Tok.startsIn [';']) = true := by
      rw [hs₂]
      rfl
    simp only [parseline, hc, bind, Except.bind, hc₂, peek_eq [';'] (by decide),
      hfound, if_true, htok, hc₄]
    refine ⟨.list c₂ c₄, s₄, rfl, ?_, hs₄⟩
    rw [← htext]
    rfl
  | @pipe ts d h ih =>
    intro s n rest hs hrest hn
    obtain ⟨n, rfl⟩ : ∃ m, n = m + 1 := ⟨n - 1, by simp only [Phrase.rounds] at hn; omega⟩
    simp only [Phrase.rounds] at hn
    have hrest' : rest.head?.all Phrase.exec.follow = true ∧
        rest.head?.any (Tok.startsIn ['|']) = false := by
      cases rest with
      | nil => exact ⟨rfl, rfl⟩
      | cons t ts =>
        simp only [List.head?_cons, Option.all_some, Phrase.follow, decide_eq_true_eq] at hrest
        rcases hrest with rfl | rfl | rfl <;> exact ⟨rfl, rfl⟩
    obtain ⟨c, s₁, hc, rfl, hs₁⟩ := ih s n _ hs hrest'.1 (by simp only [Phrase.rounds]; omega)
    simp only [parse] at hc ⊢
    simp only [parsepipe, hc, bind, Except.bind, peek_eq ['|'] (by decide), hs₁,
      hrest'.2, Bool.false_eq_true, if_false]
    exact ⟨c, skip s₁, rfl, rfl, by rw [tokens_skip, hs₁]⟩
  | @bar ts vs d e h h' ih ih' =>
    intro s n rest hs hrest hn
    obtain ⟨n, rfl⟩ : ∃ m, n = m + 1 := ⟨n - 1, by simp only [Phrase.rounds] at hn; omega⟩
    simp only [Phrase.rounds] at hn
    simp only [List.append_assoc, List.cons_append] at hs
    obtain ⟨c, s₁, hc, rfl, hs₁⟩ := ih s n _ hs rfl (by simp only [Phrase.rounds]; omega)
    obtain ⟨p, s₃, htok, hs₃, -, -⟩ := gettoken_cons ((tokens_skip s₁).trans hs₁)
    have hlen₃ : (tokens s₃).length + 1 ≤ (tokens s).length := by
      simp only [hs, hs₃, List.length_append, List.length_cons]
      omega
    obtain ⟨c₄, s₄, hc₄, rfl, hs₄⟩ := ih' s₃ n rest hs₃ hrest
      (by simp only [Phrase.rounds]; omega)
    simp only [parse] at hc hc₄ ⊢
    have hfound : (tokens s₁).head?.any (Tok.startsIn ['|']) = true := by
      rw [hs₁]
      rfl
    simp only [parsepipe, hc, bind, Except.bind, peek_eq ['|'] (by decide), hfound,
      if_true, htok, hc₄]
    exact ⟨.pipe c c₄, s₄, rfl, rfl, hs₄⟩
  | @block ts vs d rs h h' ih =>
    intro s n rest hs hrest hn
    obtain ⟨n, rfl⟩ : ∃ m, n = m + 2 := ⟨n - 2, by simp only [Phrase.rounds] at hn; omega⟩
    simp only [Phrase.rounds] at hn
    simp only [List.cons_append, List.append_assoc] at hs
    have hfound : (tokens s).head?.any (Tok.startsIn ['(']) = true := by
      rw [hs]
      rfl
    have hskip : tokens (skip (skip s)) = _ := (tokens_skip _).trans ((tokens_skip s).trans hs)
    obtain ⟨p, s₁, htok, hs₁, -, -⟩ := gettoken_cons hskip
    have hlen₁ : (tokens s₁).length + 1 ≤ (tokens s).length := by simp [hs, hs₁]
    obtain ⟨c, s₂, hc, rfl, hs₂⟩ := ih s₁ n _ hs₁ rfl (by simp only [Phrase.rounds]; omega)
    obtain ⟨p', s₃, htok', hs₃, -, -⟩ := gettoken_cons ((tokens_skip s₂).trans hs₂)
    have hlen₃ : (tokens s₃).length ≤ (tokens s₁).length := by
      simp only [hs₁, hs₃, List.length_append, List.length_cons]
      omega
    have hfound' : (tokens s₂).head?.any (Tok.startsIn [')']) = true := by
      rw [hs₂]
      rfl
    simp only [parse] at hc ⊢
    simp only [parseexec, parseblock, peek_eq ['('] (by decide), tokens_skip, hfound,
      if_true, Bool.not_true, Bool.false_eq_true, if_false, htok, bind, Except.bind, hc,
      peek_eq [')'] (by decide), hfound', htok']
    exact parseredirs_complete h' hs₃ (follow_stops hrest).1 (by omega)
  | @simple ts vs ws rs rs' h h' hlen =>
    intro s n rest hs hrest hn
    obtain ⟨n, rfl⟩ : ∃ m, n = m + 1 := ⟨n - 1, by simp only [Phrase.rounds] at hn; omega⟩
    simp only [Phrase.rounds] at hn
    rw [List.append_assoc] at hs
    have hfound : (tokens s).head?.any (Tok.startsIn ['(']) = false := by
      rw [hs]
      cases h with
      | nil => exact (args_head h' hrest).2
      | cons ht h => rcases ht with rfl | rfl | rfl <;> rfl
    obtain ⟨c, s₁, hc, htext, hs₁⟩ := parseredirs_complete (c := .exec [])
      h ((tokens_skip s).trans hs) (args_head h' hrest).1 (n := n) (by rw [tokens_skip]; omega)
    have hlen₁ : (tokens s₁).length ≤ (tokens s).length := by simp [hs, hs₁]
    simp only [parse, parseexec, peek_eq ['('] (by decide), hfound, Bool.false_eq_true,
      if_false, bind, Except.bind, hc]
    exact parseargs_complete [] h' htext (by simpa using hlen) hs₁ hrest (by omega)

/-! ## The ends of words -/

/-- A buffer in which the characters behind some words of the line are overwritten. -/
structure Terminated (l : List Char) (S : Ptr → Prop) (buf : List Char) : Prop where
  length_eq : buf.length = l.length + 1
  kept : ∀ i : ℕ, buf[i]? = (l ++ [NUL])[i]? ∨ buf[i]? = some NUL ∧ l[i]?.any isWord = false
  ended : ∀ p, S p → buf[l.length - p.eq.length]? = some NUL

theorem terminated_line (l : List Char) : Terminated l (fun _ => False) (l ++ [NUL]) where
  length_eq := by simp
  kept _ := .inl rfl
  ended _ h := h.elim

theorem Terminated.erase {S : Ptr → Prop} {buf w : List Char} {p : Ptr}
    (h : Terminated l S buf) (hp : p.IsWord l w) :
    Terminated l (fun r => S r ∨ r = p) (erase buf p.eq) := by
  obtain ⟨front, hfront⟩ := hp.start
  have hl : l = (front ++ w) ++ p.eq := by rw [List.append_assoc, ← hp.split, hfront]
  have hindex : buf.length - 1 - p.eq.length = l.length - p.eq.length := by
    rw [h.length_eq]
    omega
  have hpos : l.length - p.eq.length = (front ++ w).length := by
    rw [hl]
    simp only [List.length_append]
    omega
  have hlt : l.length - p.eq.length < buf.length := by
    rw [h.length_eq]
    omega
  have hset : ∀ i : ℕ, (Sh.erase buf p.eq)[i]? =
      if l.length - p.eq.length = i then some NUL else buf[i]? := by
    intro i
    rw [Sh.erase, hindex, List.getElem?_set, if_pos hlt]
  refine ⟨by simp [Sh.erase, h.length_eq], fun i => ?_, fun r hr => ?_⟩
  · rw [hset]
    split
    · rename_i hi
      subst hi
      refine .inr ⟨rfl, ?_⟩
      have hhead : l[l.length - p.eq.length]? = p.eq.head? := by
        rw [hpos]
        conv_lhs => rw [hl]
        rw [List.getElem?_append_right (Nat.le_refl _), Nat.sub_self, List.head?_eq_getElem?]
      rw [hhead]
      exact hp.stop
    · exact h.kept i
  · rw [hset]
    split
    · rfl
    · rename_i hi
      rcases hr with hr | rfl
      · exact h.ended r hr
      · exact absurd rfl hi

theorem Terminated.mono {S S' : Ptr → Prop} {buf : List Char} (h : Terminated l S buf)
    (hS : ∀ p, S' p → S p) : Terminated l S' buf :=
  ⟨h.length_eq, h.kept, fun p hp => h.ended p (hS p hp)⟩

theorem nulterminate_terminated {S : Ptr → Prop} {buf : List Char} (h : Terminated l S buf)
    (hc : ∀ p ∈ c.words, ∃ w, p.IsWord l w) :
    Terminated l (fun r => S r ∨ r ∈ c.words) (nulterminate c buf) := by
  induction c generalizing S buf with
  | exec argv =>
    simp only [nulterminate, Cmd.words] at hc ⊢
    induction argv generalizing S buf with
    | nil => exact h.mono (by simp)
    | cons p argv ih =>
      obtain ⟨w, hp⟩ := hc p List.mem_cons_self
      refine (ih (h.erase hp) fun r hr => hc r (List.mem_cons_of_mem p hr)).mono fun r hr => ?_
      simp only [List.mem_cons] at hr
      tauto
  | redir cmd file mode fd ih =>
    simp only [nulterminate, Cmd.words, List.mem_cons] at hc ⊢
    obtain ⟨w, hp⟩ := hc file (.inl rfl)
    refine ((ih h fun r hr => hc r (.inr hr)).erase hp).mono fun r hr => ?_
    tauto
  | pipe left right ih ih' | list left right ih ih' =>
    simp only [nulterminate, Cmd.words, List.mem_append] at hc ⊢
    refine (ih' (ih h fun r hr => hc r (.inl hr)) fun r hr => hc r (.inr hr)).mono fun r hr => ?_
    tauto
  | back cmd ih => exact ih h hc

/-- A list with a NUL behind the characters of `w`. -/
theorem exists_eq_append_of_getElem? {m w : List Char} (hw : ∀ j < w.length, m[j]? = w[j]?)
    (hstop : m[w.length]? = some NUL) : ∃ rest, m = w ++ NUL :: rest := by
  obtain ⟨hlt, hnul⟩ := List.getElem?_eq_some_iff.mp hstop
  have htake : m.take w.length = w := by
    apply List.ext_getElem?
    intro j
    rw [List.getElem?_take]
    split
    · rename_i hj
      exact hw j hj
    · rename_i hj
      rw [List.getElem?_eq_none (by omega)]
  refine ⟨m.drop (w.length + 1), ?_⟩
  conv_lhs => rw [← List.take_append_drop w.length m, htake, List.drop_eq_getElem_cons hlt, hnul]

/-- **A word that is terminated** is a string of the buffer. -/
theorem Terminated.string {S : Ptr → Prop} {buf w : List Char} {p : Ptr}
    (h : Terminated l S buf) (hp : p.IsWord l w) (hS : S p) :
    ∃ rest, buf.drop (buf.length - 1 - p.q.length) = w ++ NUL :: rest := by
  obtain ⟨front, hfront⟩ := hp.start
  have hl : l = front ++ (w ++ p.eq) := by rw [← hp.split, hfront]
  have hlen : l.length = front.length + (w.length + p.eq.length) := by
    rw [hl]
    simp only [List.length_append]
  have hstart : buf.length - 1 - p.q.length = front.length := by
    rw [h.length_eq, hp.split, List.length_append]
    omega
  rw [hstart]
  apply exists_eq_append_of_getElem?
  · intro j hj
    have hchar : l[front.length + j]? = w[j]? := by
      conv_lhs => rw [hl]
      rw [List.getElem?_append_right (by omega), Nat.add_sub_cancel_left,
        List.getElem?_append_left hj]
    have hword : w[j]?.any isWord = true := by
      rw [List.getElem?_eq_getElem hj]
      exact hp.word _ (List.getElem_mem hj)
    rw [List.getElem?_drop]
    rcases h.kept (front.length + j) with hkept | ⟨-, hend⟩
    · rw [hkept, List.getElem?_append_left (by omega), hchar]
    · rw [hchar, hword] at hend
      cases hend
  · have hend := h.ended p hS
    rw [List.getElem?_drop]
    rwa [show l.length - p.eq.length = front.length + w.length by omega] at hend

theorem Ptr.IsWord.nul_not_mem {p : Ptr} {w : List Char} (hp : p.IsWord l w) (hnul : NUL ∉ l) :
    NUL ∉ w := by
  intro hmem
  exact hnul (hp.start.subset (by rw [hp.split]; simp [hmem]))

/-- Such a word is read back. -/
theorem Terminated.cstring_eq {S : Ptr → Prop} {buf w : List Char} {p : Ptr}
    (h : Terminated l S buf) (hnul : NUL ∉ l) (hp : p.IsWord l w) (hS : S p) :
    cstring buf p.q = w := by
  obtain ⟨rest, hrest⟩ := h.string hp hS
  have hw : ∀ a ∈ w, decide (a ≠ NUL) = true := by
    intro a ha
    simpa using fun heq : a = NUL => hp.nul_not_mem hnul (heq ▸ ha)
  rw [cstring, hrest, List.takeWhile_append_of_pos hw]
  simp

/-! ## Lines -/

theorem length_glue_le (a : Char) (joined : Bool) (ts : List Tok) :
    (glue a joined ts).length ≤ ts.length + 1 := by
  unfold glue
  split
  · split <;> simp
  · simp

theorem length_tokens_le (s : List Char) : (tokens s).length ≤ s.length := by
  fun_induction tokens s with
  | case1 => simp
  | case2 a as _ ih => simp only [List.length_cons]; omega
  | case3 a as _ _ ih =>
    have hglue := length_glue_le a (as.head?.any isWord) (tokens as)
    simp only [List.length_cons]
    omega
  | _ => simp_all <;> omega

theorem nul_not_mem_line (mem : List Char) : NUL ∉ line mem := by
  intro h
  have hall := List.all_takeWhile (p := fun a => decide (a ≠ NUL)) (l := mem)
  rw [List.all_eq_true] at hall
  simpa using hall NUL h

theorem readout_eq {S : Ptr → Prop} {buf : List Char} (h : Terminated l S buf) (hnul : NUL ∉ l)
    (hc : ∀ p ∈ c.words, S p ∧ ∃ w, p.IsWord l w) : readout (c, buf) = c.text := by
  have hword : ∀ p ∈ c.words, cstring buf p.q = p.text := by
    intro p hp
    obtain ⟨hS, w, hw⟩ := hc p hp
    rw [h.cstring_eq hnul hw hS, hw.text_eq]
  simp only [readout, Cmd.text]
  clear hc
  induction c with
  | exec argv =>
    simp only [Cmd.map, Cmd.exec.injEq]
    exact List.map_congr_left hword
  | redir cmd file mode fd ih =>
    simp only [Cmd.words, List.mem_cons, forall_eq_or_imp] at hword
    simp only [Cmd.map, ih hword.2, hword.1]
  | pipe left right ih ih' | list left right ih ih' =>
    simp only [Cmd.words, List.mem_append] at hword
    simp only [Cmd.map, ih fun p hp => hword p (.inl hp), ih' fun p hp => hword p (.inr hp)]
  | back cmd ih => simp only [Cmd.map, ih hword]

/-- What `parsecmd` does: it does not run out of rounds, and the command it returns is derived
from the line, points to words of the line, and is terminated. -/
theorem parsecmd_spec (mem : List Char) :
    Sat (· ≠ .fuel) (fun r => Derives .line (tokens (line mem)) r.1.text ∧
      (∀ p ∈ r.1.words, ∃ w, p.IsWord (line mem) w) ∧
      r.2 = nulterminate r.1 (line mem ++ [NUL])) (parsecmd mem) := by
  have hn : 4 * (tokens (line mem)).length + 4 ≤ 4 * (line mem).length + 4 := by
    have hle := length_tokens_le (line mem)
    omega
  simp only [parsecmd, sat_bind]
  refine ((parse_sound _).1 (line mem) (List.suffix_refl _) hn).imp fun r hr => ?_
  simp only [peek]
  split
  · rename_i hrest
    obtain ⟨ts, hts, hd⟩ := hr.taken
    have hnil : tokens r.2 = [] := by
      rw [← tokens_skip, hrest]
      rfl
    rw [sat_ok, hts, hnil, List.append_nil]
    exact ⟨hd, hr.ptrs, rfl⟩
  · simp

/-- The command is the same when its words are read from the buffer. -/
theorem readout_nulterminate {mem : List Char} (hc : ∀ p ∈ c.words, ∃ w, p.IsWord (line mem) w) :
    readout (c, nulterminate c (line mem ++ [NUL])) = c.text :=
  readout_eq (nulterminate_terminated (terminated_line (line mem)) hc) (nul_not_mem_line mem)
    fun p hp => ⟨.inr hp, hc p hp⟩

theorem parsecmd_sound (mem : List Char) :
    Sat (· ≠ .fuel) (fun r => Derives .line (tokens (line mem)) (readout r)) (parsecmd mem) := by
  refine (parsecmd_spec mem).imp fun r hr => ?_
  obtain ⟨hd, hptrs, hbuf⟩ := hr
  have hread : readout r = r.1.text := by
    rw [← readout_nulterminate hptrs, ← hbuf]
  rwa [hread]

/-- `parsecmd` finds the command of every derivation. -/
theorem parsecmd_complete {mem : List Char} {d : Cmd (List Char)}
    (hd : Derives .line (tokens (line mem)) d) : ∃ r, parsecmd mem = .ok r ∧ readout r = d := by
  have hn : 4 * (tokens (line mem)).length + 4 ≤ 4 * (line mem).length + 4 := by
    have hle := length_tokens_le (line mem)
    omega
  obtain ⟨c, s, hc, rfl, hs⟩ := parse_complete hd (line mem) _ [] (List.append_nil _).symm rfl hn
  simp only [parse] at hc
  have hparsed := ((parse_sound _).1 (line mem) (List.suffix_refl _) hn).of_ok hc
  refine ⟨(c, nulterminate c (line mem ++ [NUL])), ?_, readout_nulterminate hparsed.ptrs⟩
  simp only [parsecmd, bind, Except.bind, hc, peek, skip_eq_nil hs]

/-- **The shell's parser accepts exactly its grammar.**  It always comes to an end; it returns
a command if and only if the tokens of the line are derived from the grammar, and then the
command is the one that the derivation determines. -/
theorem parsecmd_grammar (mem : List Char) :
    parsecmd mem ≠ .error .fuel ∧
      ∀ d, (∃ r, parsecmd mem = .ok r ∧ readout r = d) ↔ Derives .line (tokens (line mem)) d := by
  have hsound := parsecmd_sound mem
  refine ⟨fun herror => hsound.of_error herror rfl, fun d => ⟨?_, parsecmd_complete⟩⟩
  rintro ⟨r, hr, rfl⟩
  exact hsound.of_ok hr

end Xv6.Sh
