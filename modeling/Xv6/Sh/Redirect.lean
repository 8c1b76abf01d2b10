import Xv6.Sh.Wiring

/-!
# The order of redirections

`parseredirs` puts each redirection around those before it, and `runcmd` opens the file of a
`REDIR` node before it goes on to what is inside.  So the files of a simple command or of a block
are opened from the last one to the first, and the first redirection of a descriptor is the one
that stays.

## Main definitions

* `Redirected ts inner rs` — the tokens of a simple command or of a block, what is inside, and the
  redirections in the order of the line.
* `LastWins rs fds` — the last redirection of each descriptor stays.
* `FirstIsLast rs` — the first and the last redirection of a descriptor have the same file.

## Main results

* `exec_redirecting` — a process makes the redirections one by one, whatever the others do.
* `last_redirection_wins_iff` — when the last one stays.
-/

namespace Xv6.Sh

open Function Machine

variable {s s' : State} {q r k m : ℕ} {p : Proc} {inner : Command} {fds : Fds} {t : Token}
  {rs : List (Token × List Char)} {ts : List Tok} {acts : List Action}

/-! ## Redirections -/

/-- The descriptor and the mode that `parseredirs` takes. -/
def redirFd : Token → ℕ
  | .lt => 0
  | _ => 1

def redirMode : Token → ℕ
  | .lt => O_RDONLY
  | _ => O_WRONLY ||| O_CREATE

def IsRedir (t : Token) : Prop := t = .lt ∨ t = .gt ∨ t = .append

theorem redirect_eq {W : Type} (c : Cmd W) (w : W) (h : IsRedir t) :
    c.redirect w t = .redir c w (redirMode t) (redirFd t) := by
  rcases h with rfl | rfl | rfl <;> rfl

theorem redirMode_congr {t t' : Token} (h : IsRedir t) (h' : IsRedir t')
    (hfd : redirFd t = redirFd t') : redirMode t = redirMode t' := by
  rcases h with rfl | rfl | rfl <;> rcases h' with rfl | rfl | rfl <;>
    first | rfl | cases hfd

/-- A simple command or a block: what it is without its redirections, and these. -/
inductive Redirected : List Tok → Command → List (Token × List Char) → Prop
  | simple {ts us : List Tok} {ws : List (List Char)} {rs rs' : List (Token × List Char)}
      (h : Redirs ts rs) (h' : Args us ws rs') (hlen : ws.length ≤ MAXARGS - 1) :
      Redirected (ts ++ us) (.exec ws) (rs ++ rs')
  | block {ts us : List Tok} {c : Command} {rs : List (Token × List Char)}
      (h : Derives .line ts c) (h' : Redirs us rs) :
      Redirected (.lparen :: ts ++ .rparen :: us) c rs

theorem Redirs.isRedir (h : Redirs ts rs) : ∀ r ∈ rs, IsRedir r.1 := by
  induction h with
  | nil => simp
  | cons ht _ ih =>
    intro r hr
    rcases List.mem_cons.mp hr with rfl | hr
    · rcases ht with rfl | rfl | rfl <;> simp [IsRedir, Tok.kind]
    · exact ih r hr

theorem Args.isRedir {ws : List (List Char)} (h : Args ts ws rs) : ∀ r ∈ rs, IsRedir r.1 := by
  induction h with
  | nil => simp
  | word hredirs _ ih =>
    intro r hr
    exact (List.mem_append.mp hr).elim (hredirs.isRedir r) (ih r)

theorem Redirected.isRedir (h : Redirected ts inner rs) : ∀ r ∈ rs, IsRedir r.1 := by
  cases h with
  | simple h h' =>
    intro r hr
    exact (List.mem_append.mp hr).elim (h.isRedir r) (h'.isRedir r)
  | block _ h' => exact h'.isRedir

/-- The command of such a line. -/
theorem Redirected.derives (h : Redirected ts inner rs) : Derives .line ts (wrap inner rs) := by
  have hexec : Derives .exec ts (wrap inner rs) := by
    cases h with
    | simple h h' hlen => exact .simple h h' hlen
    | block h h' => exact .block h h'
  simpa using Derives.line 0 (.pipe hexec)

theorem wrap_concat {r : Token × List Char} (rest : List (Token × List Char)) (h : IsRedir r.1) :
    wrap inner (rest ++ [r]) = .redir (wrap inner rest) r.2 (redirMode r.1) (redirFd r.1) := by
  rw [wrap_append, ← redirect_eq _ _ h]
  rfl

/-! ## Descriptors -/

/-- The table with the file of a redirection. -/
def redirTo (r : Token × List Char) (fds : Fds) : Fds :=
  update fds (redirFd r.1) (some (.inode r.2 (redirMode r.1)))

theorem isSome_redirTo (r : Token × List Char) (h : (fds 0).isSome) :
    (redirTo r fds 0).isSome := by
  by_cases hr : redirFd r.1 = 0
  · simp [redirTo, hr]
  · rwa [redirTo, update_of_ne (Ne.symm hr)]

theorem isSome_redirected (rs : List (Token × List Char)) (h : (fds 0).isSome) :
    (rs.foldr redirTo fds 0).isSome := by
  induction rs with
  | nil => exact h
  | cons r rs ih => exact isSome_redirTo r ih

/-- The descriptor that was closed is the lowest free one. -/
theorem fdalloc_close (r : Token × List Char) (h : (fds 0).isSome) :
    fdalloc (close fds (redirFd r.1)) (.inode r.2 (redirMode r.1)) =
      some (redirFd r.1, redirTo r fds) := by
  have hrange : List.range NOFILE = 0 :: 1 :: (List.range NOFILE).drop 2 := rfl
  have hfd : redirFd r.1 = 0 ∨ redirFd r.1 = 1 := by
    cases r.1 <;> simp [redirFd]
  have hfind : (List.range NOFILE).find? (fun fd => (close fds (redirFd r.1) fd).isNone) =
      some (redirFd r.1) := by
    rw [hrange]
    rcases hfd with hfd | hfd
    · rw [hfd]
      simp [close]
    · rw [hfd, List.find?_cons_of_neg, List.find?_cons_of_pos]
      · simp [close]
      · simpa [close, Option.isSome_iff_ne_none] using h
  rw [fdalloc, hfind]
  simp [close, redirTo]

theorem redirected_apply (rs : List (Token × List Char)) (fds : Fds) (fd : ℕ) :
    rs.foldr redirTo fds fd =
      ((rs.find? fun r => redirFd r.1 = fd).map fun r => File.inode r.2 (redirMode r.1)).or
        (fds fd) := by
  induction rs with
  | nil => rfl
  | cons r rs ih =>
    rw [List.foldr_cons]
    by_cases hr : redirFd r.1 = fd
    · rw [List.find?_cons_of_pos (by simpa using hr), redirTo, hr, update_self]
      rfl
    · rw [List.find?_cons_of_neg (by simpa using hr), redirTo,
        update_of_ne (Ne.symm hr), ih]

/-! ## Steps -/

/-- The process that takes a step. -/
def Action.actor : Action → ℕ
  | .go q _ => q
  | .user q _ => q

/-- Where a process stands that makes the redirections `rs` from the last one on, after `k`
calls: those of `made` are made and those of `rest` are not. -/
inductive Redirecting (inner : Command) (rs : List (Token × List Char)) (fds : Fds) :
    ℕ → Proc → Prop
  | ready {p : Proc} {side : Side} (rest made : List (Token × List Char)) (hrs : rs = rest ++ made)
      (hpc : p.pc = .run (wrap inner rest) side) (hfds : p.fds = made.foldr redirTo fds) :
      Redirecting inner rs fds (2 * made.length) p
  | opening {p : Proc} (rest : List (Token × List Char)) (r : Token × List Char)
      (made : List (Token × List Char)) (hrs : rs = rest ++ r :: made)
      (hpc : p.pc = .opening r.2 (redirMode r.1) (wrap inner rest))
      (hfds : p.fds = close (made.foldr redirTo fds) (redirFd r.1)) :
      Redirecting inner rs fds (2 * made.length + 1) p

/-- **One call** of the process. -/
theorem Redirecting.go (h : Redirecting inner rs fds k p) (hk : k < 2 * rs.length)
    (h0 : (fds 0).isSome) (hrs : ∀ r ∈ rs, IsRedir r.1) (s : State) (q : ℕ) :
    ∃ p', go s q p true = s.set q p' ∧ Redirecting inner rs fds (k + 1) p' := by
  cases h with
  | ready rest made heq hpc hfds =>
    rename_i side
    have hne : rest ≠ [] := by
      rintro rfl
      rw [heq, List.nil_append] at hk
      omega
    obtain ⟨rest, r, rfl⟩ : ∃ rest' r, rest = rest' ++ [r] :=
      ⟨_, _, (List.dropLast_append_getLast hne).symm⟩
    have hr : IsRedir r.1 := hrs r (by simp [heq])
    rw [wrap_concat rest hr] at hpc
    refine ⟨{ p with
      fds := close p.fds (redirFd r.1)
      pc := .opening r.2 (redirMode r.1) (wrap inner rest) }, by simp only [Sh.go, hpc], ?_⟩
    exact .opening rest r made (by simp [heq]) rfl (by rw [hfds])
  | opening rest r made heq hpc hfds =>
    have halloc := fdalloc_close r (isSome_redirected made h0)
    refine ⟨{ p with
      fds := redirTo r (made.foldr redirTo fds)
      pc := .run (wrap inner rest) .inner }, by simp only [Sh.go, hpc, hfds, halloc, if_true], ?_⟩
    exact .ready rest (r :: made) heq rfl rfl

/-- The steps of other processes. -/
theorem go_other (hr : r ≠ q) (hq : q < s.nextpid) (p : Proc) (ok : Bool) :
    (go s r p ok).procs q = s.procs q ∧ s.nextpid ≤ (go s r p ok).nextpid := by
  have hpid : q ≠ s.nextpid := Nat.ne_of_lt hq
  unfold go
  split <;> repeat' split
  all_goals simp [State.set, State.exit, State.fork, State.note, update_of_ne,
    Ne.symm hr, hpid]

theorem userOp_other (hr : r ≠ q) (hq : q < s.nextpid) (p : Proc) (op : UserOp) :
    (userOp s r p op).procs q = s.procs q ∧ s.nextpid ≤ (userOp s r p op).nextpid := by
  have hpid : q ≠ s.nextpid := Nat.ne_of_lt hq
  unfold userOp
  split <;> repeat' split
  all_goals simp [State.set, State.exit, State.fork, update_of_ne, Ne.symm hr, hpid]

theorem step_other {a : Action} (ha : a.actor ≠ q) (hq : q < s.nextpid)
    (hs : step s a = some s') : s'.procs q = s.procs q ∧ q < s'.nextpid := by
  cases a with
  | go r ok =>
    obtain ⟨p, -, rfl⟩ := Option.map_eq_some_iff.mp hs
    have hother := go_other (s := s) ha hq p ok
    exact ⟨hother.1, Nat.lt_of_lt_of_le hq hother.2⟩
  | user r op =>
    simp only [step] at hs
    split at hs
    · rename_i p _
      split at hs
      · cases hs
        have hother := userOp_other (s := s) ha hq p op
        exact ⟨hother.1, Nat.lt_of_lt_of_le hq hother.2⟩
      · cases hs
    · cases hs

/-- **A process makes its redirections**, whatever the others do in between. -/
theorem exec_redirecting (hrun : exec step s acts = some s') (hq : q < s.nextpid)
    (hp : s.procs q = some p) (h : Redirecting inner rs fds k p) (h0 : (fds 0).isSome)
    (hrs : ∀ r ∈ rs, IsRedir r.1)
    (hown : acts.filter (fun a => a.actor = q) = List.replicate m (.go q true))
    (hm : k + m ≤ 2 * rs.length) :
    ∃ p', s'.procs q = some p' ∧ Redirecting inner rs fds (k + m) p' := by
  induction acts generalizing s k m p with
  | nil =>
    cases hrun
    cases m with
    | zero => exact ⟨p, hp, h⟩
    | succ m => cases hown
  | cons a acts ih =>
    obtain ⟨s₁, hs₁, hrest⟩ := exec_cons_eq_some.mp hrun
    by_cases ha : a.actor = q
    · rw [List.filter_cons_of_pos (by simpa using ha)] at hown
      cases m with
      | zero => cases hown
      | succ m =>
        rw [List.replicate_succ] at hown
        obtain ⟨rfl, hlater⟩ := List.cons.inj hown
        obtain ⟨p₁, hgo, hnext⟩ := h.go (by omega) h0 hrs s q
        have heq : s₁ = s.set q p₁ := by
          rw [step, hp, Option.map_some, hgo] at hs₁
          exact (Option.some.inj hs₁).symm
        rw [heq] at hrest
        have hdone := ih hrest hq (by simp [State.set]) hnext hlater (by omega)
        rwa [Nat.add_assoc, Nat.add_comm 1 m] at hdone
    · rw [List.filter_cons_of_neg (by simpa using ha)] at hown
      obtain ⟨hsame, hlt⟩ := step_other ha hq hs₁
      exact ih hrest hlt (hsame.trans hp) h hown hm

/-- The calls of the process alone are such a run. -/
theorem exec_alone (hq : q < s.nextpid) (hp : s.procs q = some p)
    (h : Redirecting inner rs fds k p) (h0 : (fds 0).isSome) (hrs : ∀ r ∈ rs, IsRedir r.1)
    (hm : k + m ≤ 2 * rs.length) :
    ∃ s', exec step s (List.replicate m (.go q true)) = some s' := by
  induction m generalizing s k p with
  | zero => exact ⟨s, rfl⟩
  | succ m ih =>
    obtain ⟨p₁, hgo, hnext⟩ := h.go (by omega) h0 hrs s q
    obtain ⟨s', hs'⟩ := ih (s := s.set q p₁) hq (by simp [State.set]) hnext (by omega)
    refine ⟨s', exec_cons_eq_some.mpr ⟨s.set q p₁, ?_, hs'⟩⟩
    rw [step, hp, Option.map_some, hgo]

/-! ## The result -/

/-- The last redirection of each descriptor stays. -/
def LastWins (rs : List (Token × List Char)) (fds : Fds) : Prop :=
  ∀ fd r, rs.reverse.find? (fun r => redirFd r.1 = fd) = some r →
    fds fd = some (.inode r.2 (redirMode r.1))

/-- The first and the last redirection of a descriptor have the same file. -/
def FirstIsLast (rs : List (Token × List Char)) : Prop :=
  ∀ fd r r', rs.find? (fun r => redirFd r.1 = fd) = some r →
    rs.reverse.find? (fun r => redirFd r.1 = fd) = some r' → r.2 = r'.2

theorem lastWins_iff (hrs : ∀ r ∈ rs, IsRedir r.1) (fds : Fds) :
    LastWins rs (rs.foldr redirTo fds) ↔ FirstIsLast rs := by
  constructor
  · intro h fd r r' hfirst hlast
    have heq := h fd r' hlast
    rw [redirected_apply, hfirst] at heq
    exact (File.inode.inj (Option.some.inj heq)).1
  · intro h fd r' hlast
    have hmem : r' ∈ rs := List.mem_reverse.mp (List.mem_of_find?_eq_some hlast)
    have hfd' : redirFd r'.1 = fd := by simpa using List.find?_some hlast
    cases hfirst : rs.find? fun r => redirFd r.1 = fd with
    | none => exact absurd hfd' (by simpa using List.find?_eq_none.mp hfirst r' hmem)
    | some r =>
      have hfd : redirFd r.1 = fd := by simpa using List.find?_some hfirst
      rw [redirected_apply, hfirst, Option.map_some, Option.some_or,
        redirMode_congr (hrs r (List.mem_of_find?_eq_some hfirst)) (hrs r' hmem)
          (hfd.trans hfd'.symm), h fd r r' hfirst hlast]

/-- **When redirections take effect from left to right.**  A simple command or a block is run by a
process that has descriptor 0, every `open` succeeds, and other processes do what they want: what
is inside the redirections then runs with the last redirection of each descriptor exactly if that
has the same file as the first one. -/
theorem last_redirection_wins_iff {mem : List Char}
    (hline : Redirected (tokens (line mem)) inner rs) :
    ∃ c, parsecmd mem = .ok c ∧
      ∀ (s : State) (q : ℕ) (p : Proc) (side : Side), s.procs q = some p → q < s.nextpid →
        p.pc = .run (readout c) side → (p.fds 0).isSome →
        (∃ s', exec step s (List.replicate (2 * rs.length) (.go q true)) = some s') ∧
        ∀ (acts : List Action) (s' : State), exec step s acts = some s' →
          acts.filter (fun a => a.actor = q) = List.replicate (2 * rs.length) (.go q true) →
          ∃ p' side', s'.procs q = some p' ∧ p'.pc = .run inner side' ∧
            (LastWins rs p'.fds ↔ FirstIsLast rs) := by
  obtain ⟨c, hc, hread⟩ := parsecmd_complete hline.derives
  refine ⟨c, hc, fun s q p side hp hq hpc h0 => ?_⟩
  have hstart : Redirecting inner rs p.fds (2 * [].length) p :=
    .ready rs [] (by simp) (hread ▸ hpc) rfl
  have hredir := hline.isRedir
  refine ⟨exec_alone hq hp hstart h0 hredir (by simp), fun acts s' hrun hown => ?_⟩
  obtain ⟨p', hp', hend⟩ := exec_redirecting hrun hq hp hstart h0 hredir hown (by simp)
  generalize hk : 2 * [].length + 2 * rs.length = k at hend
  cases hend with
  | ready rest made hrs hpc' hfds =>
    have hlen : made.length = rs.length := by
      rw [List.length_nil] at hk
      omega
    have hnil : rest = [] := by
      rw [hrs, List.length_append] at hlen
      exact List.length_eq_zero_iff.mp (by omega)
    subst hnil
    obtain rfl : rs = made := hrs
    refine ⟨p', _, hp', hpc', ?_⟩
    rw [hfds]
    exact lastWins_iff hredir p.fds
  | opening rest r made hrs hpc' hfds =>
    simp only [List.length_nil] at hk
    omega

/-- The command `a<b`. -/
theorem redirected_one : Redirected (tokens (line ['a', '<', 'b'])) (.exec [['a']])
    [(.lt, ['b'])] :=
  .simple .nil (.word (.cons (.inl rfl) .nil) .nil) (by decide)

theorem last_redirection_wins_one : ∃ c s p side, parsecmd ['a', '<', 'b'] = .ok c ∧
    exec step (shell (readout c)) [.go 0 true, .go 0 true] = some s ∧ s.procs 0 = some p ∧
    p.pc = .run (.exec [['a']]) side ∧ LastWins [(.lt, ['b'])] p.fds := by
  obtain ⟨c, hc, hall⟩ := last_redirection_wins_iff redirected_one
  obtain ⟨⟨s, hs⟩, hruns⟩ := hall (shell (readout c)) 0 _ .inner rfl Nat.zero_lt_one rfl rfl
  obtain ⟨p, side, hp, hpc, hiff⟩ := hruns _ s hs rfl
  refine ⟨c, s, p, side, hc, hs, hp, hpc, hiff.mpr fun fd r r' hfirst hlast => ?_⟩
  rw [show [(Token.lt, ['b'])].reverse = [(.lt, ['b'])] from rfl, hfirst] at hlast
  rw [Option.some.inj hlast]

/-- **The first redirection wins**: `a<b<c` reads from `b`. -/
theorem first_redirection_wins : ∃ c s p, parsecmd ['a', '<', 'b', '<', 'c'] = .ok c ∧
    exec step (shell (readout c)) (List.replicate 4 (.go 0 true)) = some s ∧
    s.procs 0 = some p ∧ p.pc = .run (.exec [['a']]) .inner ∧
    p.fds 0 = some (.inode ['b'] O_RDONLY) ∧
    ¬LastWins [(.lt, ['b']), (.lt, ['c'])] p.fds := by
  refine ⟨_, _, _, rfl, rfl, rfl, rfl, rfl, fun h => ?_⟩
  have hlast := h 0 (.lt, ['c']) rfl
  cases hlast

end Xv6.Sh
