import Mathlib.Data.List.Basic
import Mathlib.Data.List.Infix

/-!
# Tokens of a command line

`gettoken` and `peek` of `sh.c`, and the tokens of a line.  A pointer into the line is the
rest of the line from there on, so `[]` is `es`, where the terminating NUL is.

## Main definitions

* `skip`, `gettoken`, `peek` — the scanner.
* `tokens` — the tokens of a line, said without the scanner.

## Main results

* `gettoken_nil`, `gettoken_cons` — `gettoken` takes the first token.
* `peek_eq` — `peek` looks at the first token.
-/

namespace Xv6.Sh

/-- `whitespace`; the last one is a vertical tab. -/
def whitespace : List Char := [' ', '\t', '\r', '\n', Char.ofNat 11]

def symbols : List Char := ['<', '|', '>', '&', ';', '(', ')']

def isWhite (c : Char) : Bool := whitespace.contains c

/-- A character of a word. -/
def isWord (c : Char) : Bool := !whitespace.contains c && !symbols.contains c

/-! ## The scanner -/

/-- What `gettoken` returns: 0 at the end of the line, a symbol, `+` for `>>`, and `a` for a
word. -/
inductive Token
  | eol
  | bar
  | amp
  | semi
  | lparen
  | rparen
  | lt
  | gt
  | append
  | word
  deriving DecidableEq

/-- The start `q` and the end `eq` of a token. -/
structure Ptr where
  q : List Char
  eq : List Char
  deriving DecidableEq

/-- The characters between the two pointers. -/
def Ptr.text (p : Ptr) : List Char := p.q.take (p.q.length - p.eq.length)

/-- `while(s < es && strchr(whitespace, *s)) s++` -/
def skip (s : List Char) : List Char := s.dropWhile isWhite

/-- The `switch` of `gettoken`: a token and what is behind it. -/
def scan : List Char → Token × List Char
  | [] => (.eol, [])
  | '|' :: s => (.bar, s)
  | '(' :: s => (.lparen, s)
  | ')' :: s => (.rparen, s)
  | ';' :: s => (.semi, s)
  | '&' :: s => (.amp, s)
  | '<' :: s => (.lt, s)
  | '>' :: '>' :: s => (.append, s)
  | '>' :: s => (.gt, s)
  | c :: s => (.word, (c :: s).dropWhile isWord)

def gettoken (s : List Char) : Token × Ptr × List Char :=
  let q := skip s
  let r := scan q
  (r.1, ⟨q, r.2⟩, skip r.2)

/-- `peek`: whether the next character is one of `toks`, and where it is. -/
def peek (s toks : List Char) : Bool × List Char :=
  ((skip s).head?.any toks.contains, skip s)

/-! ## The tokens of a line -/

inductive Tok
  | bar
  | amp
  | semi
  | lparen
  | rparen
  | lt
  | gt
  | append
  | word (w : List Char)
  deriving DecidableEq

def Tok.kind : Tok → Token
  | .bar => .bar
  | .amp => .amp
  | .semi => .semi
  | .lparen => .lparen
  | .rparen => .rparen
  | .lt => .lt
  | .gt => .gt
  | .append => .append
  | .word _ => .word

/-- The character that a symbol starts with. -/
def Tok.first : Tok → Option Char
  | .bar => some '|'
  | .amp => some '&'
  | .semi => some ';'
  | .lparen => some '('
  | .rparen => some ')'
  | .lt => some '<'
  | .gt => some '>'
  | .append => some '>'
  | .word _ => none

/-- The symbols of one character. -/
def symbol : Char → Option Tok
  | '|' => some .bar
  | '&' => some .amp
  | ';' => some .semi
  | '(' => some .lparen
  | ')' => some .rparen
  | '<' => some .lt
  | '>' => some .gt
  | _ => none

/-- A character of a word, before the tokens of what follows it.  `joined` says that the next
character is in a word too. -/
def glue (c : Char) (joined : Bool) : List Tok → List Tok
  | .word w :: ts => if joined then .word (c :: w) :: ts else .word [c] :: .word w :: ts
  | ts => .word [c] :: ts

/-- The tokens of a line: symbols, with `>>` for two adjacent `>`, and words, which are the
longest runs of other characters. -/
def tokens : List Char → List Tok
  | [] => []
  | c :: cs =>
    if isWhite c then tokens cs
    else
      match symbol c with
      | none => glue c (cs.head?.any isWord) (tokens cs)
      | some .gt =>
        match cs with
        | [] => [.gt]
        | d :: ds => if d = '>' then .append :: tokens ds else .gt :: tokens (d :: ds)
      | some t => t :: tokens cs

variable {s cs w rest : List Char} {c : Char} {t : Tok} {ts : List Tok}

/-! ## Characters -/

theorem isWord_of_symbol_eq_none (hc : isWhite c = false) (h : symbol c = none) :
    isWord c = true := by
  have hmem : c ∉ symbols := by
    intro hmem
    simp only [symbols, List.mem_cons, List.not_mem_nil, or_false] at hmem
    rcases hmem with rfl | rfl | rfl | rfl | rfl | rfl | rfl <;> simp [symbol] at h
  simp only [isWord, Bool.and_eq_true, Bool.not_eq_true']
  exact ⟨hc, by simpa using hmem⟩

theorem isWhite_of_isWord (h : isWord c = true) : isWhite c = false := by
  simp only [isWord, Bool.and_eq_true, Bool.not_eq_true'] at h
  exact h.1

theorem symbol_of_isWord (h : isWord c = true) : symbol c = none := by
  simp only [isWord, Bool.and_eq_true, Bool.not_eq_true'] at h
  unfold symbol
  split <;> simp [symbols] at h ⊢

/-! ## Tokens from the left -/

theorem tokens_cons (c : Char) (cs : List Char) : tokens (c :: cs) =
    if isWhite c then tokens cs
    else
      match symbol c with
      | none => glue c (cs.head?.any isWord) (tokens cs)
      | some .gt =>
        match cs with
        | [] => [.gt]
        | d :: ds => if d = '>' then .append :: tokens ds else .gt :: tokens (d :: ds)
      | some t => t :: tokens cs := by
  rw [tokens.eq_def]

theorem tokens_white (h : isWhite c = true) : tokens (c :: cs) = tokens cs := by
  rw [tokens_cons, if_pos h]

theorem tokens_symbol (hc : isWhite c = false) (h : symbol c = some t) (ht : t ≠ .gt) :
    tokens (c :: cs) = t :: tokens cs := by
  rw [tokens_cons, if_neg (by simp [hc]), h]
  split
  · rename_i heq
    cases heq
  · rename_i heq
    cases heq
    exact absurd rfl ht
  · rename_i heq
    cases heq
    rfl

theorem tokens_append : tokens ('>' :: '>' :: cs) = .append :: tokens cs := by
  simp [tokens, isWhite, whitespace, symbol]

theorem tokens_gt (h : cs.head? ≠ some '>') : tokens ('>' :: cs) = .gt :: tokens cs := by
  cases cs with
  | nil => rfl
  | cons d ds =>
    have hd : d ≠ '>' := by simpa using h
    rw [tokens_cons]
    simp [isWhite, whitespace, symbol, hd]

theorem tokens_cons_word (h : isWord c = true) :
    tokens (c :: cs) = glue c (cs.head?.any isWord) (tokens cs) := by
  rw [tokens_cons, symbol_of_isWord h, if_neg (by simp [isWhite_of_isWord h])]

/-- A run of characters that is as long as it can be is one word. -/
theorem tokens_word (hw : w ≠ []) (hword : ∀ c ∈ w, isWord c = true)
    (hrest : rest.head?.any isWord = false) : tokens (w ++ rest) = .word w :: tokens rest := by
  induction w with
  | nil => exact absurd rfl hw
  | cons c w ih =>
    rw [List.cons_append, tokens_cons_word (hword c List.mem_cons_self)]
    cases w with
    | nil =>
      rw [List.nil_append, hrest]
      cases tokens rest with
      | nil => rfl
      | cons t ts => cases t <;> rfl
    | cons d w =>
      rw [ih (List.cons_ne_nil d w) fun e he => hword e (List.mem_cons_of_mem c he)]
      have hd : (d :: w ++ rest).head?.any isWord = true := by
        simp [hword d (List.mem_cons_of_mem c List.mem_cons_self)]
      rw [hd]
      rfl

theorem tokens_skip (s : List Char) : tokens (skip s) = tokens s := by
  induction s with
  | nil => rfl
  | cons c cs ih =>
    simp only [skip, List.dropWhile_cons]
    split
    · rename_i hc
      rw [tokens_white hc]
      exact ih
    · rfl

theorem skip_cons (h : skip s = c :: cs) : isWhite c = false := by
  have hhead := List.head?_dropWhile_not isWhite s
  unfold skip at h
  rw [h] at hhead
  simpa using hhead

theorem skip_suffix (s : List Char) : skip s <:+ s := List.dropWhile_suffix isWhite

/-- What is left after the last token is white space. -/
theorem skip_eq_nil (h : tokens s = []) : skip s = [] := by
  cases hs : skip s with
  | nil => rfl
  | cons c cs =>
    exfalso
    have hc := skip_cons hs
    rw [← tokens_skip, hs, tokens_cons, if_neg (by simp [hc])] at h
    split at h
    · unfold glue at h
      split at h
      · split at h <;> cases h
      · cases h
    · split at h
      · cases h
      · split at h <;> cases h
    · cases h

/-! ## The scanner takes the first token -/

/-- The pointers `p` are those of the word `w` of a line. -/
structure Ptr.IsWord (p : Ptr) (line w : List Char) : Prop where
  start : p.q <:+ line
  split : p.q = w ++ p.eq
  word : ∀ c ∈ w, isWord c = true
  stop : p.eq.head?.any isWord = false

theorem Ptr.IsWord.text_eq {p : Ptr} {line : List Char} (h : p.IsWord line w) : p.text = w := by
  simp [Ptr.text, h.split]

theorem Ptr.IsWord.of_suffix {p : Ptr} {line line' : List Char} (h : p.IsWord line w)
    (hline : line <:+ line') : p.IsWord line' w :=
  ⟨h.start.trans hline, h.split, h.word, h.stop⟩

theorem scan_word (h : isWord c = true) : scan (c :: cs) = (.word, (c :: cs).dropWhile isWord) := by
  have hsymbol := symbol_of_isWord h
  unfold scan
  split <;> first | rfl | simp_all [symbol]

/-- What the scanner finds at a character that is not white space. -/
theorem scan_spec (cs : List Char) (hc : isWhite c = false) : ∃ t, (scan (c :: cs)).1 = t.kind ∧
    tokens (c :: cs) = t :: tokens (scan (c :: cs)).2 ∧ (scan (c :: cs)).2 <:+ c :: cs ∧
      t.first = (if isWord c then none else some c) ∧
      ∀ w, t = .word w → (⟨c :: cs, (scan (c :: cs)).2⟩ : Ptr).IsWord (c :: cs) w := by
  cases hsymbol : symbol c with
  | none =>
    have hword := isWord_of_symbol_eq_none hc hsymbol
    have hsplit := (List.takeWhile_append_dropWhile (p := isWord) (l := c :: cs)).symm
    have hne : (c :: cs).takeWhile isWord ≠ [] := by simp [hword]
    have hall : ∀ d ∈ (c :: cs).takeWhile isWord, isWord d = true := by
      have h := List.all_takeWhile (p := isWord) (l := c :: cs)
      simpa only [List.all_eq_true] using h
    have hstop : ((c :: cs).dropWhile isWord).head?.any isWord = false := by
      have hhead := List.head?_dropWhile_not isWord (c :: cs)
      cases h : ((c :: cs).dropWhile isWord).head? with
      | none => rfl
      | some d => simpa [h] using hhead
    rw [scan_word hword]
    refine ⟨.word ((c :: cs).takeWhile isWord), rfl, ?_, List.dropWhile_suffix _,
      (if_pos hword).symm, ?_⟩
    · conv_lhs => rw [hsplit]
      exact tokens_word hne hall hstop
    · intro w hw
      cases hw
      exact ⟨List.suffix_refl _, hsplit, hall, hstop⟩
  | some t =>
    have hword : ¬ isWord c = true := fun hword => by
      rw [symbol_of_isWord hword] at hsymbol
      cases hsymbol
    rw [if_neg hword]
    by_cases hgt : t = .gt
    · subst hgt
      obtain rfl : c = '>' := by
        unfold symbol at hsymbol
        split at hsymbol <;> first | rfl | cases hsymbol
      cases cs with
      | nil => exact ⟨.gt, rfl, rfl, List.suffix_cons _ _, rfl, fun w hw => by cases hw⟩
      | cons d ds =>
        by_cases hd : d = '>'
        · subst hd
          refine ⟨.append, rfl, tokens_append, ?_, rfl, fun w hw => by cases hw⟩
          exact (List.suffix_cons _ _).trans (List.suffix_cons _ _)
        · have hscan : scan ('>' :: d :: ds) = (.gt, d :: ds) := by
            unfold scan
            split <;> grind
          rw [hscan]
          exact ⟨.gt, rfl, tokens_gt (by simpa using hd), List.suffix_cons _ _, rfl,
            fun w hw => by cases hw⟩
    · have hscan : scan (c :: cs) = (t.kind, cs) := by
        unfold symbol at hsymbol
        split at hsymbol <;> cases hsymbol <;> first | rfl | exact absurd rfl hgt
      rw [hscan]
      refine ⟨t, rfl, tokens_symbol hc hsymbol hgt, List.suffix_cons _ _, ?_, ?_⟩
      · unfold symbol at hsymbol
        split at hsymbol <;> cases hsymbol <;> rfl
      · rintro w rfl
        unfold symbol at hsymbol
        split at hsymbol <;> cases hsymbol

theorem gettoken_nil (h : tokens s = []) : gettoken s = (.eol, ⟨[], []⟩, []) := by
  simp only [gettoken, skip_eq_nil h]
  rfl

/-- **`gettoken` takes the first token.** -/
theorem gettoken_cons (h : tokens s = t :: ts) : ∃ p s', gettoken s = (t.kind, p, s') ∧
    tokens s' = ts ∧ s' <:+ s ∧ ∀ w, t = .word w → p.IsWord s w := by
  cases hs : skip s with
  | nil =>
    rw [← tokens_skip, hs] at h
    cases h
  | cons c cs =>
    obtain ⟨t', hkind, htokens, hsuffix, -, hword⟩ := scan_spec cs (skip_cons hs)
    rw [← tokens_skip, hs, htokens] at h
    obtain ⟨rfl, hts⟩ := List.cons.inj h
    have hs' : c :: cs <:+ s := hs ▸ skip_suffix s
    refine ⟨⟨c :: cs, (scan (c :: cs)).2⟩, skip (scan (c :: cs)).2, ?_, ?_, ?_, ?_⟩
    · simp only [gettoken, hs, hkind]
    · rw [tokens_skip, hts]
    · exact (skip_suffix _).trans (hsuffix.trans hs')
    · intro w hw
      exact (hword w hw).of_suffix hs'

/-- Whether a token is a symbol that starts with one of the characters. -/
def Tok.startsIn (toks : List Char) (t : Tok) : Bool := t.first.any toks.contains

/-- **`peek` looks at the first token.** -/
theorem peek_eq (toks : List Char) (h : toks.all symbols.contains = true) (s : List Char) :
    peek s toks = ((tokens s).head?.any (Tok.startsIn toks), skip s) := by
  unfold peek
  congr 1
  rw [← tokens_skip s]
  cases hs : skip s with
  | nil => rfl
  | cons c cs =>
    have hc := skip_cons hs
    obtain ⟨t, -, htokens, -, hfirst, -⟩ := scan_spec cs hc
    rw [htokens]
    simp only [List.head?_cons, Option.any_some, Tok.startsIn, hfirst]
    split
    · rename_i hword
      have hout : c ∉ toks := fun hmem => by
        have hsym : c ∈ symbols := by simpa using List.all_eq_true.mp h c hmem
        simp [isWord, hsym] at hword
      simpa using hout
    · rfl

end Xv6.Sh
