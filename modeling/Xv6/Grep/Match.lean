import Mathlib.Computability.Language

/-!
# The matcher of grep

`match`, `matchhere` and `matchstar` of `grep.c`, and the language of a pattern.  A string is the
list of its bytes, without the NUL that ends it; reading `re[1]` past the last byte is finding
nothing after the first.

## Main definitions

* `matchhere`, `isMatch` — the matcher.
* `parse`, `Pattern.lang` — the items of a pattern, and what they stand for.
* `Occurs` — a substring of the text is in the language of the pattern.

## Main results

* `matchhere_eq_true` — a match at the beginning of the text, with its end.
* `match_iff_occurs` — the matcher finds what occurs.
-/

namespace Xv6.Grep

open Computability

/-- The characters with a meaning. -/
def star : UInt8 := '*'.toUInt8
def dot : UInt8 := '.'.toUInt8
def dollar : UInt8 := '$'.toUInt8
def caret : UInt8 := '^'.toUInt8

/-! ## The matcher -/

/-- The loop of `matchstar(c, re, text)`, with `matchhere(re, _)` given as `here`. -/
def matchstar (here : List UInt8 → Bool) (c : UInt8) : List UInt8 → Bool
  | [] => here []
  | t :: text => here (t :: text) || ((t == c || c == dot) && matchstar here c text)

/-- `*text!='\0' && (re[0]=='.' || re[0]==*text)`, and then `matchhere(re+1, text+1)`. -/
def matchone (here : List UInt8 → Bool) (c : UInt8) : List UInt8 → Bool
  | [] => false
  | t :: text => (c == dot || c == t) && here text

def matchhere : List UInt8 → List UInt8 → Bool
  | [], _ => true
  | [c], text =>
    -- `re[1]` is the end of the pattern, where `matchhere` returns 1.
    if c = dollar then text.isEmpty else matchone (fun _ => true) c text
  | c :: d :: re, text =>
    if d = star then matchstar (matchhere re) c text else matchone (matchhere (d :: re)) c text

/-- The loop of `match`: `matchhere` at the text and at everything after it. -/
def matchAnywhere (re : List UInt8) : List UInt8 → Bool
  | [] => matchhere re []
  | t :: text => matchhere re (t :: text) || matchAnywhere re text

/-- `match` -/
def isMatch (re text : List UInt8) : Bool :=
  if re.head? = some caret then matchhere re.tail text else matchAnywhere re text

/-! ## The language of a pattern -/

/-- What a pattern is made of. -/
inductive Item
  | one (c : UInt8)
  | many (c : UInt8)
  deriving DecidableEq, Repr

/-- The character that stands for any one, or for itself. -/
def Admits (c d : UInt8) : Prop := c = dot ∨ c = d

instance (c d : UInt8) : Decidable (Admits c d) := inferInstanceAs (Decidable (_ ∨ _))

/-- The strings of one character. -/
def sym (c : UInt8) : Language UInt8 := {w | ∃ d, Admits c d ∧ w = [d]}

def Item.lang : Item → Language UInt8
  | .one c => sym c
  | .many c => (sym c)∗

/-- The items one after the other. -/
def lang : List Item → Language UInt8
  | [] => 1
  | i :: is => i.lang * lang is

/-- The items of a pattern without anchors: a character with a star after it, or without one. -/
def parse : List UInt8 → List Item
  | [] => []
  | [c] => [.one c]
  | c :: d :: re => if d = star then .many c :: parse re else .one c :: parse (d :: re)

/-- A pattern without the `^` at its beginning. -/
def withoutCaret (re : List UInt8) : List UInt8 := if re.head? = some caret then re.tail else re

/-- A pattern without the `$` at its end. -/
def withoutDollar (re : List UInt8) : List UInt8 :=
  if re.getLast? = some dollar then re.dropLast else re

/-- Some substring of the text is in the language of the pattern: it begins the text if the pattern
begins with `^`, and ends it if the rest of the pattern ends with `$`. -/
def Occurs (re text : List UInt8) : Prop :=
  ∃ pre w post, text = pre ++ w ++ post ∧ w ∈ lang (parse (withoutDollar (withoutCaret re))) ∧
    (re.head? = some caret → pre = []) ∧
    ((withoutCaret re).getLast? = some dollar → post = [])

/-! ## Correctness -/

variable {c d : UInt8} {re text w : List UInt8} {here : List UInt8 → Bool}

theorem mem_many : w ∈ (sym c)∗ ↔ ∀ d ∈ w, Admits c d := by
  rw [Language.mem_kstar]
  constructor
  · rintro ⟨L, rfl, hL⟩ d hd
    obtain ⟨v, hv, hdv⟩ := List.mem_flatten.mp hd
    obtain ⟨e, he, rfl⟩ := hL v hv
    rw [List.mem_singleton.mp hdv]
    exact he
  · intro h
    refine ⟨w.map fun d => [d], ?_, fun v hv => ?_⟩
    · rw [← List.flatMap_def, List.flatMap_singleton']
    · obtain ⟨d, hd, rfl⟩ := List.mem_map.mp hv
      exact ⟨d, h d hd, rfl⟩

/-- The loop finds every way to cut off characters that the first one admits. -/
theorem matchstar_eq_true : matchstar here c text = true ↔
    ∃ w post, text = w ++ post ∧ (∀ d ∈ w, Admits c d) ∧ here post = true := by
  induction text with
  | nil =>
    rw [matchstar]
    constructor
    · intro h
      exact ⟨[], [], rfl, by simp, h⟩
    · rintro ⟨w, post, happ, -, h⟩
      rwa [(List.append_eq_nil_iff.mp happ.symm).2] at h
  | cons t text ih =>
    simp only [matchstar, Bool.or_eq_true, Bool.and_eq_true, beq_iff_eq, ih]
    constructor
    · rintro (h | ⟨hc, w, post, rfl, hw, h⟩)
      · exact ⟨[], t :: text, rfl, by simp, h⟩
      · refine ⟨t :: w, post, rfl, ?_, h⟩
        rintro d hd
        rcases List.mem_cons.mp hd with rfl | hd
        · exact hc.symm.imp_right Eq.symm
        · exact hw d hd
    · rintro ⟨w, post, happ, hw, h⟩
      cases w with
      | nil =>
        rw [happ]
        exact .inl h
      | cons d w =>
        obtain ⟨rfl, rfl⟩ := List.cons_eq_cons.mp happ
        refine .inr ⟨(hw t List.mem_cons_self).symm.imp_left Eq.symm, w, post, rfl, ?_, h⟩
        exact fun d hd => hw d (List.mem_cons_of_mem _ hd)

theorem matchone_eq_true : matchone here c text = true ↔
    ∃ d post, text = d :: post ∧ Admits c d ∧ here post = true := by
  cases text with
  | nil => simp [matchone]
  | cons t text => simp [matchone, Admits, and_assoc]

theorem withoutDollar_cons_cons (c d : UInt8) (re : List UInt8) :
    withoutDollar (c :: d :: re) = c :: withoutDollar (d :: re) := by
  simp only [withoutDollar, List.getLast?_cons_cons, List.dropLast_cons_cons]
  split <;> rfl

theorem withoutDollar_star (re : List UInt8) :
    withoutDollar (star :: re) = star :: withoutDollar re := by
  cases re with
  | nil => rfl
  | cons d re => exact withoutDollar_cons_cons star d re

theorem head?_withoutDollar (hd : d ≠ star) : (withoutDollar (d :: re)).head? ≠ some star := by
  cases re with
  | nil =>
    by_cases hdollar : d = dollar
    · rw [hdollar]
      decide
    · simpa [withoutDollar, hdollar] using hd
  | cons e re =>
    rw [withoutDollar_cons_cons]
    simpa using hd

theorem parse_cons (h : re.head? ≠ some star) : parse (c :: re) = .one c :: parse re := by
  cases re with
  | nil => rfl
  | cons d re => exact if_neg fun hd => h (by rw [hd]; rfl)

/-- Both sides of a match of the first item and of the rest. -/
theorem exists_lang_cons {i : Item} {is : List Item} {P : List UInt8 → Prop} :
    (∃ w post, text = w ++ post ∧ w ∈ lang (i :: is) ∧ P post) ↔
      ∃ v rest, text = v ++ rest ∧ v ∈ i.lang ∧
        ∃ w post, rest = w ++ post ∧ w ∈ lang is ∧ P post := by
  constructor
  · rintro ⟨w, post, rfl, hw, h⟩
    obtain ⟨v, hv, u, hu, rfl⟩ := Language.mem_mul.mp hw
    exact ⟨v, u ++ post, List.append_assoc .., hv, u, post, rfl, hu, h⟩
  · rintro ⟨v, rest, rfl, hv, w, post, rfl, hw, h⟩
    exact ⟨v ++ w, post, (List.append_assoc ..).symm, Language.mem_mul.mpr ⟨v, hv, w, hw, rfl⟩, h⟩

theorem mem_lang_nil : w ∈ lang [] ↔ w = [] := Iff.rfl

/-- A match at the beginning of the text; what is left of the text is what the `$` speaks of. -/
theorem matchhere_eq_true : matchhere re text = true ↔
    ∃ w post, text = w ++ post ∧ w ∈ lang (parse (withoutDollar re)) ∧
      (re.getLast? = some dollar → post = []) := by
  induction re using List.twoStepInduction generalizing text with
  | nil =>
    refine iff_of_true rfl ⟨[], text, rfl, rfl, ?_⟩
    rintro ⟨⟩
  | singleton c =>
    by_cases hc : c = dollar
    · subst hc
      rw [matchhere, if_pos rfl, List.isEmpty_iff]
      constructor
      · rintro rfl
        exact ⟨[], [], rfl, rfl, fun _ => rfl⟩
      · rintro ⟨w, post, rfl, hw, h⟩
        rw [mem_lang_nil.mp hw, h rfl]
        rfl
    · have hopen : withoutDollar [c] = [c] := if_neg (by simpa using hc)
      have hlast : [c].getLast? ≠ some dollar := by simpa using hc
      rw [matchhere, if_neg hc, matchone_eq_true, hopen, parse, exists_lang_cons]
      constructor
      · rintro ⟨d, post, rfl, hd, -⟩
        exact ⟨[d], post, rfl, ⟨d, hd, rfl⟩, [], post, rfl, rfl, fun h => absurd h hlast⟩
      · rintro ⟨v, post, rfl, ⟨d, hd, rfl⟩, -⟩
        exact ⟨d, post, rfl, hd, rfl⟩
  | cons_cons c d re ih ih' =>
    rw [matchhere, withoutDollar_cons_cons, List.getLast?_cons_cons]
    by_cases hd : d = star
    · have hlast : (star :: re).getLast? = some dollar ↔ re.getLast? = some dollar := by
        cases re with
        | nil => exact iff_of_false (by decide) (by decide)
        | cons e re => rw [List.getLast?_cons_cons]
      have hparse : parse (c :: star :: withoutDollar re) =
          .many c :: parse (withoutDollar re) := if_pos rfl
      rw [if_pos hd, hd, withoutDollar_star, hlast, hparse, exists_lang_cons, matchstar_eq_true]
      simp only [ih, Item.lang, mem_many]
    · rw [if_neg hd, parse_cons (head?_withoutDollar hd), exists_lang_cons, matchone_eq_true]
      simp only [ih' d]
      constructor
      · rintro ⟨e, rest, rfl, he, h⟩
        exact ⟨[e], rest, rfl, ⟨e, he, rfl⟩, h⟩
      · rintro ⟨v, rest, rfl, ⟨e, he, rfl⟩, h⟩
        exact ⟨e, rest, rfl, he, h⟩

theorem matchAnywhere_eq_true :
    matchAnywhere re text = true ↔ ∃ pre rest, text = pre ++ rest ∧ matchhere re rest = true := by
  induction text with
  | nil =>
    rw [matchAnywhere]
    constructor
    · exact fun h => ⟨[], [], rfl, h⟩
    · rintro ⟨pre, rest, happ, h⟩
      rwa [(List.append_eq_nil_iff.mp happ.symm).2] at h
  | cons t text ih =>
    rw [matchAnywhere, Bool.or_eq_true, ih]
    constructor
    · rintro (h | ⟨pre, rest, rfl, h⟩)
      · exact ⟨[], t :: text, rfl, h⟩
      · exact ⟨t :: pre, rest, rfl, h⟩
    · rintro ⟨pre, rest, happ, h⟩
      cases pre with
      | nil =>
        rw [happ]
        exact .inl h
      | cons d pre =>
        obtain ⟨-, rfl⟩ := List.cons_eq_cons.mp happ
        exact .inr ⟨pre, rest, rfl, h⟩

/-- **The matcher.**  For every pattern and text, `match` is 1 exactly when a substring of the text
(a prefix of it, if the pattern begins with `^`) is in the language of the pattern. -/
theorem match_iff_occurs (re text : List UInt8) : isMatch re text = true ↔ Occurs re text := by
  rw [isMatch, Occurs, withoutCaret]
  by_cases hcaret : re.head? = some caret
  · simp only [if_pos hcaret, matchhere_eq_true]
    constructor
    · rintro ⟨w, post, rfl, hw, h⟩
      exact ⟨[], w, post, rfl, hw, fun _ => rfl, h⟩
    · rintro ⟨pre, w, post, rfl, hw, hpre, h⟩
      rw [hpre hcaret]
      exact ⟨w, post, rfl, hw, h⟩
  · simp only [if_neg hcaret, matchAnywhere_eq_true, matchhere_eq_true]
    constructor
    · rintro ⟨pre, -, rfl, w, post, rfl, hw, h⟩
      exact ⟨pre, w, post, (List.append_assoc ..).symm, hw, fun hc => absurd hc hcaret, h⟩
    · rintro ⟨pre, w, post, rfl, hw, -, h⟩
      exact ⟨pre, w ++ post, List.append_assoc .., w, post, rfl, hw, h⟩

end Xv6.Grep
